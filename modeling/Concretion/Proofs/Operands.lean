import Concretion.Proofs.Arrows
import Concretion.Proofs.Constructors
import Concretion.Proofs.Terminated
import Concretion.Proofs.Written.Phrase

/-!
# Operands and their groups

Parentheses around an operand are not in the abstract tree. Beside an operator, and as the object of
a call or an access, the operand is put in a group if precedence asks for one. Everywhere else it is
taken as it is. That is not always right: where the grammar admits an assignment expression only, a
comma must have been written in parentheses.

- `Slot`: the places in which an expression may be an operand.
- `Slot.groups`: is an operand put in a group there?
- `Slot.asksParens`: must it have been in parentheses although precedence does not ask for it?
- `Slot.Of`: what is recovered with an operand in a slot.
- `operand_stands_in_slot`: the operand is in a group just as the slot says, and never in slots that
  ask for parentheses of their own.
-/

namespace Concretion

open Recover

/-! ## Slots -/

/-- The places in which an expression may be an operand. -/
inductive Slot where
  /-- Beside an operator that has no other operand. -/
  | only (operator : Operator)
  | left (operator : Operator)
  | right (operator : Operator)
  | test
  | branch
  /-- What is called, or what is accessed. -/
  | object
  /-- The brackets of an access. -/
  | index
  | argument
  | element
  /-- Behind the key of a member. -/
  | value
  | initializer
  /-- Behind the equals sign of a parameter. -/
  | default
  /-- Behind the arrow of a function. -/
  | body
  deriving DecidableEq, Repr

namespace Slot

/-- Is an operand that applies the operator put in a group? -/
def groups : Slot → Operator → Bool
  | only operator, inner | right operator, inner => operator.needsParens inner .right
  | left operator, inner => operator.needsParens inner .left
  | test, inner => Operator.conditional.needsParens inner .left
  | branch, inner => Operator.assign.needsParens inner .right
  | object, inner => inner != .construct
  | _, _ => false

/-- Is a node of the kind what has the operand for a child? -/
def isHeldBy : Slot → NodeKind → Bool
  | only _, kind | left _, kind | right _, kind | test, kind | branch, kind => kind.isOperation
  | object, .invoke | object, .getProperty _ | object, .getElement _ _ | index, .getElement _ _
  | argument, .arguments _ _ | element, .array _ _ | value, .nameValuePair _
  | initializer, .declaration _ | default, .declaration _ | body, .arrowFunction => true
  | _, _ => false

/-- Must an operand that applies the operator have been in parentheses, by a rule of its own? A
comma must be where only an assignment expression is admitted, and most operators in front of an
operand must be where a power is taken of it. -/
def asksParens : Slot → Operator → Bool
  | argument, .comma | element, .comma | value, .comma | initializer, .comma | default, .comma
  | body, .comma | only .spreadElement, .comma | only .spreadArgument, .comma => true
  | left .power, inner =>
    [Operator.not, .bitNot, .plus, .minus, .typeOf, .void, .delete].contains inner
  | _, _ => false

/-- Where a slot asks for parentheses by a rule of its own, no operand is put in a group. -/
theorem groups_of_asksParens {slot : Slot} {inner : Operator} (h : slot.asksParens inner = true) :
    slot.groups inner = false := by
  cases slot with
  | only operator =>
    cases operator with
    | spreadElement | spreadArgument => cases inner <;> decide
    | _ => cases h
  | left operator =>
    cases operator with
    | power => cases inner <;> first | decide | cases h
    | _ => cases h
  | right | test | branch | object | index => cases h
  | argument | element | value | initializer | default | body => rfl

end Slot

/-! ## What an operand comes to -/

/-- The node of an operator is what a run that recovers the expression attaches. -/
structure Expr.Attaches (expr : Expr) (scope : Scope) (made : Node) : Prop where
  operation : made.kind.isOperation = true
  run : ∃ before after, expr.recover.outcome scope before = (.ok (), after) ∧
    after.stack = before.stack.attach made

/-- If the operand applies an operator, then one of the nodes is what has been made of it, in a
group if that operator asks for one. -/
def Expr.Stands (operand : Expr) (scope : Scope) (grouped : Operator → Bool) (nodes : List Node) :
    Prop :=
  ∀ inner, operand.operator? = some inner → ∃ made, operand.Attaches scope made ∧
    (if grouped inner then made.grouped else made) ∈ nodes

theorem Expr.Stands.mono {operand : Expr} {scope : Scope} {grouped : Operator → Bool}
    {nodes others : List Node} (h : operand.Stands scope grouped nodes) (hsubset : nodes ⊆ others) :
    operand.Stands scope grouped others := by
  intro inner hinner
  obtain ⟨made, hmade, hmem⟩ := h inner hinner
  exact ⟨made, hmade, hsubset hmem⟩

/-- The node has the operand in one of its slots. -/
structure Node.HasOperand (node : Node) (slot : Slot) (scope : Scope) (operand : Expr) : Prop where
  kind : slot.isHeldBy node.kind = true
  stands : operand.Stands scope slot.groups node.children

/-- The operand is in such a slot somewhere in the tree. -/
def Node.HasOperandBelow (node : Node) (slot : Slot) (scope : Scope) (operand : Expr) : Prop :=
  ∃ holder ∈ node.preorder, holder.HasOperand slot scope operand

theorem Node.HasOperand.below {node : Node} {slot : Slot} {scope : Scope} {operand : Expr}
    (h : node.HasOperand slot scope operand) : node.HasOperandBelow slot scope operand :=
  ⟨node, Node.mem_preorder.2 (.inl rfl), h⟩

theorem Node.HasOperandBelow.above {node child : Node} {slot : Slot} {scope : Scope}
    {operand : Expr} (h : child.HasOperandBelow slot scope operand)
    (hchild : child ∈ node.children) : node.HasOperandBelow slot scope operand := by
  obtain ⟨holder, hmem, hholds⟩ := h
  exact ⟨holder, Node.mem_preorder.2 (.inr ⟨child, hchild, hmem⟩), hholds⟩

namespace Recover

variable {scope : Scope}

/-- What has been attached is put in a group, or stays as it is. -/
theorem Puts.grouped {action : Recover Unit} {result : Node → Prop}
    (h : Puts scope action result) (mustGroup : Bool) :
    Puts scope (action >>= fun _ => if mustGroup then Recover.groupLastChild else pure ())
      fun made => ∃ node, result node ∧ made = if mustGroup then node.grouped else node := by
  intro session last hrun
  obtain ⟨_, later, hfirst, hsecond⟩ := ok_of_bind hrun
  obtain ⟨node, hstack, hnode⟩ := h session later hfirst
  cases mustGroup with
  | false =>
    cases hsecond
    exact ⟨node, hstack, node, hnode, rfl⟩
  | true =>
    have hgroup : later.stack.groupLastChild = .ok (session.stack.attach node.grouped) := by
      rw [hstack]
      exact session.stack.groupLastChild_attach node
    rw [if_pos rfl] at hsecond
    obtain ⟨stack, hmade, rfl⟩ := ok_of_edit hsecond
    rw [hgroup] at hmade
    cases hmade
    exact ⟨node.grouped, rfl, node, hnode, rfl⟩

namespace PutsAll

/-- What is true of the nodes of an item is true of all nodes. -/
theorem forM_subset {γ : Type} {step : γ → Recover Unit} {result : γ → List Node → Prop}
    {list : List γ} (h : ∀ item ∈ list, PutsAll scope (step item) (result item))
    (hsubset : ∀ {item nodes others}, result item nodes → nodes ⊆ others → result item others) :
    PutsAll scope (list.forM step) fun nodes => ∀ item ∈ list, result item nodes := by
  refine (PutsAll.forM h).mono ?_
  rintro _ ⟨groups, rfl, hgroups⟩ item hitem
  induction hgroups with
  | nil => cases hitem
  | cons hfirst _ ih =>
    obtain ⟨-, hrest⟩ := List.forall_mem_cons.1 h
    rw [List.flatten_cons]
    rcases List.mem_cons.1 hitem with rfl | hitem
    · exact hsubset hfirst (List.subset_append_left _ _)
    · exact hsubset (ih hrest hitem) (List.subset_append_right _ _)

/-- What is taken back is the node that was put aside. -/
theorem deferring {node : Node} {body : Recover Unit} {result more : List Node → Prop}
    (next : Node → Recover Unit) (hsound : Builds False true body)
    (hbody : PutsAll scope body result) (hnext : PutsAll scope (next node) more) :
    PutsAll scope (Recover.deferring node body >>= next) fun nodes =>
      ∃ front back, nodes = front ++ back ∧ result front ∧ more back := by
  intro session last hrun
  obtain ⟨taken, middle, hdeferring, hrest⟩ := ok_of_bind hrun
  have hdefer : (defer node).outcome scope session =
      (.ok (session.shelf.put node).1, session.deferred node) := rfl
  rw [Recover.deferring, outcome_bind_ok hdefer] at hdeferring
  obtain ⟨_, later, hrun, htaken⟩ := ok_of_bind hdeferring
  have hkept := hsound.kept scope (session.deferred node) False.elim
  rw [hrun] at hkept
  -- what has been deferred in between has been taken back
  obtain ⟨shelf, htake, -⟩ := Shelf.take_put session.shelf node (hkept.pending () rfl)
  have hget : (get : Recover Session).outcome scope later = (.ok later, later) := rfl
  rw [takeDeferred, outcome_bind_ok hget, htake] at htaken
  cases htaken
  obtain ⟨front, hfront, hresult⟩ := hbody _ later hrun
  obtain ⟨back, hback, hmore⟩ := hnext _ last hrest
  refine ⟨front ++ back, ?_, front, back, rfl, hresult, hmore⟩
  rw [hback, Stack.attachAll_append]
  exact congrArg (Stack.attachAll · back) hfront

end PutsAll

end Recover

namespace Expr

variable {operand : Expr} {scope : Scope}

theorem puts_made {inner : Operator} (h : operand.operator? = some inner) (scope : Scope) :
    Puts scope operand.recover (operand.Attaches scope) := by
  intro session last hrun
  obtain ⟨made, hstack, hkind⟩ := puts_operation h scope session last hrun
  exact ⟨made, hstack, hkind, session, last, hrun, hstack⟩

/-- An operand without an operator is never put in a group. -/
theorem putsAll_stands (operand : Expr) (scope : Scope) (grouped : Operator → Bool) :
    PutsAll scope (operand.recover >>= fun _ =>
      if operand.operator?.any grouped then groupLastChild else pure ())
      (operand.Stands scope grouped) := by
  cases hoperator : operand.operator? with
  | none =>
    refine ((operand.putsAll scope).andThen (.ofSees (.pure ()))).mono ?_
    rintro nodes - inner hinner
    rw [hoperator] at hinner
    cases hinner
  | some operator =>
    refine (PutsAll.ofPuts ((puts_made hoperator scope).grouped (grouped operator))).mono ?_
    rintro _ ⟨_, rfl, made, hmade, rfl⟩ inner hinner
    rw [hoperator] at hinner
    cases hinner
    exact ⟨made, hmade, List.mem_singleton_self _⟩

theorem putsAll_beside (operand : Expr) (scope : Scope) (outer : Operator) (side : Operator.Side) :
    PutsAll scope ((operand.fragmentOf operand.recover).buildBeside outer side)
      (operand.Stands scope (outer.needsParens · side)) :=
  operand.putsAll_stands scope _

theorem putsAll_object (operand : Expr) (scope : Scope) :
    PutsAll scope (operand.fragmentOf operand.recover).buildObject
      (operand.Stands scope (· != .construct)) :=
  operand.putsAll_stands scope _

theorem putsAll_bare (operand : Expr) (scope : Scope) :
    PutsAll scope operand.recover (operand.Stands scope fun _ => false) := by
  have hnone : operand.operator?.any (fun _ => false) = false := by
    cases operand.operator? <;> rfl
  have hbare := operand.putsAll_stands scope fun _ => false
  simp only [hnone, Bool.false_eq_true, if_false, bind_pure_unit] at hbare
  exact hbare

/-! ## Operators -/

/-- A construction takes apart a call, all other operators leave their operand whole. -/
theorem puts_unary {operator : Operator} (h : operator ≠ .construct) (range : Range)
    (operand : Expr) :
    Puts scope (Expr.unary range operator operand).recover
      (·.HasOperand (.only operator) scope operand) := by
  refine (Rule.puts_unary range fun spelling form hform => .ofPutsAll ?_).mono
    fun made hmade => ⟨hmade.1, hmade.2⟩
  have hconstruct : ¬ (form == .construct) = true := by
    intro hcall
    rw [eq_of_beq hcall] at hform
    cases operator <;> cases hform
    exact h rfl
  rw [Rule.operandBelow, if_neg hconstruct]
  refine ((operand.putsAll_beside scope operator .right).andThen (.ofSees (.pure ()))).mono ?_
  rintro _ ⟨nodes, _, rfl, hnodes, rfl⟩
  exact hnodes.mono (List.subset_append_left _ _)

theorem puts_binary (range : Range) (operator : Operator) (left right : Expr) :
    Puts scope (Expr.binary range operator left right).recover fun made =>
      made.HasOperand (.left operator) scope left ∧
        made.HasOperand (.right operator) scope right := by
  have hbody := (left.putsAll_beside scope operator .left).andThen
    (right.putsAll_beside scope operator .right)
  refine (Rule.puts_binary range (.ofPutsAll hbody)).mono ?_
  rintro made ⟨hkind, front, back, hchildren, hfront, hback⟩
  constructor
  · exact ⟨hkind, hchildren ▸ hfront.mono (List.subset_append_left _ _)⟩
  · exact ⟨hkind, hchildren ▸ hback.mono (List.subset_append_right _ _)⟩

theorem puts_conditional (range : Range) (test consequent alternate : Expr) :
    Puts scope (Expr.conditional range test consequent alternate).recover fun made =>
      made.HasOperand .test scope test ∧
        ∀ branch ∈ [consequent, alternate], made.HasOperand .branch scope branch := by
  have hbody := (test.putsAll_beside scope .conditional .left).andThen
    ((consequent.putsAll_beside scope .assign .right).andThen
      (alternate.putsAll_beside scope .assign .right))
  refine (Rule.puts_conditional range (.ofPutsAll hbody)).mono ?_
  rintro made ⟨hkind, front, _, hchildren, hfront, middle, back, rfl, hmiddle, hback⟩
  have hrest : middle ++ back ⊆ made.children := hchildren ▸ List.subset_append_right _ _
  constructor
  · exact ⟨hkind, hchildren ▸ hfront.mono (List.subset_append_left _ _)⟩
  · refine List.forall_mem_cons.2 ⟨⟨hkind, ?_⟩, List.forall_mem_singleton.2 ⟨hkind, ?_⟩⟩
    · exact hmiddle.mono (List.Subset.trans (List.subset_append_left _ _) hrest)
    · exact hback.mono (List.Subset.trans (List.subset_append_right _ _) hrest)

/-! ## Calls, accesses and array literals -/

theorem argumentFragments_eq_map (arguments : List Expr) :
    argumentFragments arguments =
      arguments.map fun argument => argument.fragmentOf argument.recover := by
  induction arguments with
  | nil => rfl
  | cons argument rest ih => exact congrArg _ ih

theorem elementFragments_eq_map (elements : List (Option Expr)) :
    elementFragments elements =
      elements.map (·.map fun element => element.fragmentOf element.recover) := by
  induction elements with
  | nil => rfl
  | cons element rest ih =>
    cases element with
    | none => exact congrArg _ ih
    | some element => exact congrArg _ ih

theorem putsAll_arguments (arguments : List Expr) (scope : Scope) :
    PutsAll scope ((argumentFragments arguments).forM (·.build)) fun nodes =>
      ∀ argument ∈ arguments, argument.Stands scope (fun _ => false) nodes := by
  rw [argumentFragments_eq_map, List.forM_eq_forM, List.forM_map, ← List.forM_eq_forM]
  exact .forM_subset (fun argument _ => argument.putsAll_bare scope) Stands.mono

/-- The arguments are below their list, which is beside the callee. -/
theorem puts_call (range : Range) (callee : Expr) (arguments : List Expr) :
    Puts scope (Expr.call range callee arguments).recover fun made =>
      made.HasOperand .object scope callee ∧
        ∀ argument ∈ arguments, made.HasOperandBelow .argument scope argument := by
  have hcallee := callee.putsAll_object scope
  have hsound : Builds False true (callee.fragmentOf callee.recover).buildObject :=
    Fragment.sound_buildObject (callee.sound False).builds
  refine (Rule.puts_call (fun nodes => callee.Stands scope (· != .construct) nodes ∧
    ∀ argument ∈ arguments, ∃ list ∈ nodes, list.HasOperand .argument scope argument)
      range (fun hnil => .ofPutsAll (hcallee.mono ?_))
        fun lparen rparen place => .ofPutsAll ?_).mono ?_
  · rintro nodes hnodes
    rw [argumentFragments_eq_map, List.map_eq_nil_iff] at hnil
    subst hnil
    exact ⟨hnodes, List.forall_mem_nil _⟩
  · let fill (list : Node) : Recover Unit :=
      enter list ((argumentFragments arguments).forM (·.build))
    have hfill : Puts scope (fill (.leaf (.arguments lparen rparen) place)) fun list =>
        list.kind = .arguments lparen rparen ∧
          ∀ argument ∈ arguments, argument.Stands scope (fun _ => false) list.children :=
      Enters.ofPutsAll (putsAll_arguments arguments scope) _ _
    refine (PutsAll.deferring fill hsound hcallee (.ofPuts hfill)).mono ?_
    rintro _ ⟨front, _, rfl, hfront, list, rfl, hkind, hlist⟩
    refine ⟨hfront.mono (List.subset_append_left _ _), fun argument hargument => ?_⟩
    have hmem : list ∈ front ++ [list] := List.mem_append_right _ (List.mem_singleton_self _)
    exact ⟨list, hmem, hkind ▸ rfl, hlist argument hargument⟩
  · rintro made ⟨hkind, hobject, hlist⟩
    refine ⟨⟨hkind ▸ rfl, hobject⟩, fun argument hargument => ?_⟩
    obtain ⟨list, hmem, hholds⟩ := hlist argument hargument
    exact hholds.below.above hmem

theorem puts_access (range : Range) (base : Expr) (property : String) :
    Puts scope (Expr.access range base property).recover
      (·.HasOperand .object scope base) := by
  have hbody : ∀ name, PutsAll scope (do
      (base.fragmentOf base.recover).buildObject
      attach name) (base.Stands scope (· != .construct)) := by
    intro name
    have hname : Puts scope (attach name) fun _ => True := .attach trivial
    refine ((base.putsAll_object scope).andThen (.ofPuts hname)).mono ?_
    rintro _ ⟨front, back, rfl, hfront, -⟩
    exact hfront.mono (List.subset_append_left _ _)
  refine (Rule.puts_access range property fun name => .ofPutsAll (hbody name)).mono ?_
  rintro made ⟨⟨dot, hkind⟩, hbase⟩
  exact ⟨hkind ▸ rfl, hbase⟩

theorem puts_index (range : Range) (base index : Expr) :
    Puts scope (Expr.index range base index).recover fun made =>
      made.HasOperand .object scope base ∧ made.HasOperand .index scope index := by
  have hbody := (base.putsAll_object scope).andThen (index.putsAll_bare scope)
  refine (Rule.puts_index range (.ofPutsAll hbody)).mono ?_
  rintro made ⟨⟨lbracket, rbracket, hkind⟩, front, back, hchildren, hfront, hback⟩
  constructor
  · exact ⟨hkind ▸ rfl, hchildren ▸ hfront.mono (List.subset_append_left _ _)⟩
  · exact ⟨hkind ▸ rfl, hchildren ▸ hback.mono (List.subset_append_right _ _)⟩

/-- An element that is left out has a node, too, but there is no operand in it. -/
theorem putsAll_element (item : Option Expr) (hole : Nat) (scope : Scope) :
    PutsAll scope (Rule.element hole (item.map fun element => element.fragmentOf element.recover))
      fun nodes => ∀ element ∈ item, element.Stands scope (fun _ => false) nodes := by
  cases item with
  | none =>
    have hhole : Puts scope (Rule.element hole none) fun _ => True :=
      .after .getStack fun _ _ => .attach trivial
    exact (PutsAll.ofPuts hhole).mono fun _ _ _ hnone => by cases hnone
  | some element =>
    refine (element.putsAll_bare scope).mono ?_
    rintro nodes hnodes _ ⟨⟩
    exact hnodes

theorem putsAll_elements (elements : List (Option Expr)) (hole : Nat) (scope : Scope) :
    PutsAll scope ((elementFragments elements).forM (Rule.element hole)) fun nodes =>
      ∀ element, some element ∈ elements → element.Stands scope (fun _ => false) nodes := by
  rw [elementFragments_eq_map, List.forM_eq_forM, List.forM_map, ← List.forM_eq_forM]
  refine (PutsAll.forM_subset (fun item _ => putsAll_element item hole scope)
    fun hitem hsubset element hmem => (hitem element hmem).mono hsubset).mono ?_
  exact fun nodes hnodes element hmem => hnodes (some element) hmem element rfl

theorem puts_array (range : Range) (elements : List (Option Expr)) :
    Puts scope (Expr.array range elements).recover fun made =>
      ∀ element, some element ∈ elements → made.HasOperand .element scope element := by
  have hcount : ∀ (length : Nat) (span : Span), Sees scope (do
      let count := (← getStack).current.childCount
      if count != length then
        throw (.shape "Array" (.elementCount length count) (some span))) fun _ => True := by
    intro length span
    refine Sees.getStack.bind fun stack _ => ?_
    dsimp only
    split
    · exact .throw
    · exact (Sees.pure ()).mono fun _ _ => trivial
  refine (Rule.puts_array range fun hole span => .ofPutsAll
    ((putsAll_elements elements hole scope).andThen (.ofSees (hcount _ _)))).mono ?_
  rintro made ⟨⟨lbracket, rbracket, hkind⟩, front, _, hchildren, hfront, rfl⟩ element hmem
  rw [List.append_nil] at hchildren
  exact ⟨hkind ▸ rfl, hchildren ▸ hfront element hmem⟩

end Expr

/-! ## Members and parameters -/

/-- A node that has what was made of an operand for a child holds the operand, in a slot where there
are no groups. -/
theorem Node.HasOperand.bare {node made : Node} {slot : Slot} {scope : Scope} {operand : Expr}
    (hslot : slot.isHeldBy node.kind = true) (hbare : ∀ inner, slot.groups inner = false)
    (hmade : operand.Attaches scope made) (hmem : made ∈ node.children) :
    node.HasOperand slot scope operand := by
  refine ⟨hslot, fun inner _ => ⟨made, hmade, ?_⟩⟩
  rw [hbare inner, if_neg Bool.false_ne_true]
  exact hmem

namespace Rule

variable {scope : Scope} {operand : Expr} {inner : Operator}

/-- The operand comes last in the node. -/
theorem puts_enterBehind (hinner : operand.operator? = some inner) {node : Node}
    {front : Recover Unit} (hfront : Builds False true front) {slot : Slot}
    (hslot : slot.isHeldBy node.kind = true) (hbare : ∀ inner, slot.groups inner = false) :
    Puts scope (enter node (front >>= fun _ => operand.recover))
      (·.HasOperand slot scope operand) := by
  have hbody : Builds False true (front >>= fun _ => operand.recover) :=
    hfront.andThen (operand.sound False).builds.relax
  refine .after (Sees.withinEndsIn hbody (.behind fun _ => (Expr.puts_made hinner scope).endsIn)) ?_
  rintro made ⟨hkind, child, hchild, hmade⟩
  exact .attach (.bare (hkind ▸ hslot) hbare hmade (List.mem_of_getLast? hchild))

theorem puts_pairWith (hinner : operand.operator? = some inner) {member : MemberFragment}
    (hsound : member.Sound False) (hkey : operand.range ≠ member.key.range) :
    Puts scope (pair member (operand.fragmentOf operand.recover))
      (·.HasOperand .value scope operand) := by
  refine .after (.rangeSpan _ _) fun span _ => ?_
  split
  · next heq => exact absurd (beq_iff_eq.1 heq) hkey
  · refine .after (.find _ _ _ _) fun colon _ => ?_
    exact puts_enterBehind hinner (sound_key hsound) rfl fun _ => rfl

/-- A value that applies an operator stands behind the key. -/
theorem puts_memberWith (hinner : operand.operator? = some inner) {member : Member}
    (hgetter : member.getter = none) (hsetter : member.setter = none)
    (hvalue : member.value = some operand) (hkey : operand.range ≠ member.key.range) :
    Puts scope (Rule.member member.fragment) (·.HasOperand .value scope operand) := by
  have hsound : member.fragment.Sound False := member.sound False
  obtain ⟨range, key, value, getter, setter, isStatic, isComputed⟩ := member
  obtain ⟨rfl, rfl, rfl⟩ : getter = none ∧ setter = none ∧ value = some operand :=
    ⟨hgetter, hsetter, hvalue⟩
  -- only a function is taken for a method, and it does not apply an operator
  have hfragment : memberValue (some operand) =
      some (.expression (operand.fragmentOf operand.recover)) := by
    cases operand with
    | functionDef definition => cases hinner
    | _ => rfl
  rw [member_of_none rfl rfl]
  simp only [Member.fragment, hfragment] at hsound ⊢
  exact puts_pairWith hinner hsound hkey

/-- A default value that applies an operator stands behind the name of its parameter. -/
theorem puts_default (hinner : operand.operator? = some inner) {function : FunctionFragment}
    {parameter : Ident} (hrest : parameter.isRest = false) (hdefault : parameter.isDefault = true)
    (hvalue : function.defaults.lookup parameter.name =
      some (operand.fragmentOf operand.recover)) :
    Puts scope (Rule.parameter function parameter) (·.HasOperand .default scope operand) := by
  unfold Rule.parameter
  simp only [hrest, hdefault, hvalue, Bool.false_eq_true, if_false]
  refine .after (.find _ _ _ _) fun equal _ => .after (.rangeSpan _ _) fun span _ => ?_
  refine .after (.identifier _ _ _) fun name _ => ?_
  exact puts_enterBehind hinner (.attach False.elim) rfl fun _ => rfl

end Rule

/-- The parameter that a statement sets to a default value, and that value. -/
def Stmt.setting? : Stmt → Option (String × Expr)
  | .expression _ (.binary _ _ (.ident name) (.conditional _ _ value _)) => some (name.name, value)
  | _ => none

/-- The default value of a parameter of the function. -/
def FunctionDef.defaultOf? (definition : FunctionDef) (parameter : Ident) : Option Expr :=
  match definition.body.kind with
  | .parameter =>
    (definition.body.statements.dropLast.filterMap Stmt.setting?).lookup parameter.name
  | _ => none

theorem initialisers_eq_map (statements : List Stmt) :
    initialisers statements = statements.map fun statement =>
      statement.setting?.map fun setting =>
        (setting.1, setting.2.fragmentOf setting.2.recover) := by
  induction statements with
  | nil => rfl
  | cons statement rest ih =>
    rw [List.map_cons, ← ih]
    unfold Stmt.setting?
    split
    · rfl
    · next hother =>
      rw [initialisers]
      · rfl
      · exact hother

theorem lookup_map_snd {α β γ : Type} [BEq α] (f : β → γ) (key : α) (list : List (α × β)) :
    (list.map fun entry => (entry.1, f entry.2)).lookup key = (list.lookup key).map f := by
  induction list with
  | nil => rfl
  | cons entry rest ih =>
    obtain ⟨name, value⟩ := entry
    cases hkey : key == name with
    | true => simp only [List.map_cons, List.lookup_cons, hkey, Option.map_some]
    | false => simp only [List.map_cons, List.lookup_cons, hkey, ih]

/-- What a function finds for a parameter is recovered from its default value. -/
theorem FunctionDef.lookup_defaults {definition : FunctionDef} {parameter : Ident} {value : Expr}
    (h : definition.defaultOf? parameter = some value) :
    definition.fragment.defaults.lookup parameter.name =
      some (value.fragmentOf value.recover) := by
  obtain ⟨range, name, kind, parameters, ⟨place, block, statements⟩, _, _, _, _⟩ := definition
  cases block with
  | parameter =>
    have hlookup : (statements.dropLast.filterMap Stmt.setting?).lookup parameter.name =
        some value := h
    show ((initialisers statements).dropLast.filterMap id).lookup parameter.name = _
    rw [initialisers_eq_map, ← List.map_dropLast, List.filterMap_map, Function.id_comp,
      ← List.map_filterMap, lookup_map_snd fun value : Expr => value.fragmentOf value.recover,
      hlookup]
    rfl
  | braced | synthetic => cases h

/-! ## Arrow functions -/

/-- The body of an arrow function is the given expression. If there are default values, the
statements that set them come first. -/
inductive Block.IsValue (value : Expr) : Block → Prop where
  | plain {range place : Range} : IsValue value ⟨range, .synthetic,
      [.returnValue place (some value) true]⟩
  | behind {range place : Range} {setters : List Stmt} : IsValue value ⟨range, .parameter,
      setters ++ [.returnValue place (some value) true]⟩
  | inBlock {range : Range} {setters : List Stmt} {body : Block} (h : body.IsValue value) :
      IsValue value ⟨range, .parameter, setters ++ [.block body]⟩

theorem Block.IsValue.puts {value : Expr} {block : Block} {inner : Operator} {scope : Scope}
    (hinner : value.operator? = some inner) (h : block.IsValue value) :
    Puts scope block.recover (value.Attaches scope) := by
  have hvalue := Expr.puts_made hinner scope
  induction h with
  | @plain range place =>
    show Puts scope (Rule.syntheticBlock
      (statementFragments [.returnValue place (some value) true])) _
    rw [Rule.syntheticBlock_of_none rfl]
    exact hvalue.before (Sees.pure ())
  | behind => exact Block.recover_parameter _ _ _ ▸ hvalue
  | inBlock _ ih => exact Block.recover_parameter _ _ _ ▸ ih

theorem Node.unexported_mem_preorder (node : Node) : node.unexported ∈ node.preorder := by
  unfold Node.unexported
  split
  · next declaration _ hchildren =>
    refine mem_preorder.2 (.inr ⟨declaration, ?_, mem_preorder.2 (.inl rfl)⟩)
    rw [hchildren]
    exact List.mem_singleton_self _
  · exact mem_preorder.2 (.inl rfl)

/-- The body of an arrow function comes last in its node. -/
theorem Rule.puts_arrow {operand : Expr} {inner : Operator} {scope : Scope}
    {definition : FunctionDef} (hinner : operand.operator? = some inner)
    (hkind : definition.kind = .arrow) (hbody : definition.body.IsValue operand) :
    Puts scope (Expr.functionDef definition).recover
      (·.unexported.HasOperand .body scope operand) := by
  have hsound : definition.fragment.Sound False := definition.sound False
  obtain ⟨range, name, kind, parameters, body, isAnonymous, isMethod, isDeclared, hasSuper⟩ :=
    definition
  obtain rfl : kind = .arrow := hkind
  refine puts_functionExpression_of (·.HasOperand .body scope operand) ?_
  refine (sees_functionStart _ _).bind fun start _ => (Sees.rangeSpan _ _).bind fun span _ => ?_
  refine (Sees.withinEndsIn ?_
    (.behind fun _ => .behind fun _ => (hbody.puts hinner).endsIn)).mono ?_
  · refine (sound_functionName _ ?_).andThen
      ((sound_parameters _ hsound).andThen hsound.body.builds)
    rintro part ⟨⟩
  · rintro made ⟨hkind, child, hchild, hmade⟩
    have hmem : child ∈ made.children := List.mem_of_getLast? hchild
    refine ⟨hkind ▸ rfl, .bare (hkind ▸ rfl) (fun _ => rfl) hmade hmem, ?_⟩
    exact .bare (hkind ▸ rfl) (fun _ => rfl) hmade hmem

/-! ## Variables -/

theorem Stack.children_attachAll (stack : Stack) (nodes : List Node) :
    (stack.attachAll nodes).children = stack.children ++ nodes := by
  induction nodes generalizing stack with
  | nil => exact (List.append_nil _).symm
  | cons first rest ih =>
    show ((stack.attach first).attachAll rest).children = _
    rw [ih, attach_eq_setChildren, children_setChildren, List.append_assoc, List.singleton_append]

namespace Rule

variable {scope : Scope} {operand : Expr} {inner : Operator} {binding : BindingFragment}

/-- Of the two parts of a declarator the value is recovered first. It changes places with the name,
but stays. -/
theorem exists_value_of_declarationParts (hinner : operand.operator? = some inner)
    (hinit : binding.init = some (operand.fragmentOf operand.recover)) {span : Span}
    {session last : Session}
    (hrun : (declarationParts binding span).outcome scope session = (.ok (), last)) :
    ∃ made ∈ last.stack.children, operand.Attaches scope made := by
  obtain ⟨_, later, hparts, hrest⟩ := ok_of_bind hrun
  rw [valueAndName, hinit] at hparts
  obtain ⟨_, hstack, _, _, rfl, ⟨made, rfl, hmade⟩, -⟩ :=
    ((PutsAll.ofPuts (Expr.puts_made hinner scope)).andThen
      (Expr.putsAll (.ident binding.name) scope)) session later hparts
  have hmem : made ∈ later.stack.children := by
    rw [hstack, Stack.children_attachAll]
    exact List.mem_append_right _ List.mem_cons_self
  refine ⟨made, ?_, hmade⟩
  rw [outcome_bind_ok (outcome_getStack scope later)] at hrest
  split at hrest
  · next htwo =>
    obtain ⟨-, hreorder⟩ := ok_of_reorder hrest
    obtain ⟨first, second, hchildren⟩ : ∃ first second, later.stack.children = [first, second] :=
      List.length_eq_two.1 htwo
    rw [hreorder, hchildren]
    rw [hchildren] at hmem
    simpa [or_comm] using hmem
  · -- a name that is skipped leaves the value as the only part
    cases hrest
    show made ∈ (later.stack.attach (.empty span.last)).children
    rw [Stack.attach_eq_setChildren, Stack.children_setChildren]
    exact List.mem_append_left _ hmem
  · cases hrest

theorem returns_declaration (hsound : binding.Sound False)
    (hinner : operand.operator? = some inner)
    (hinit : binding.init = some (operand.fragmentOf operand.recover)) :
    Returns scope (declaration binding) (·.HasOperand .initializer scope operand) := by
  have hnode : ∀ (equal : Option Symbol) (span : Span),
      Sees scope (within (.leaf (.declaration equal) span) (declarationParts binding span))
        (·.HasOperand .initializer scope operand) := by
    intro equal span
    refine (Sees.withinChildren (∃ made ∈ ·, operand.Attaches scope made)
      (sound_declarationParts hsound False.elim) ?_).mono ?_
    · exact fun session last hrun => exists_value_of_declarationParts hinner hinit hrun
    · rintro node ⟨hkind, made, hmem, hmade⟩
      exact .bare (hkind ▸ rfl) (fun _ => rfl) hmade hmem
  have hsees : Sees scope (declaration binding) (·.HasOperand .initializer scope operand) := by
    refine (Sees.rangeSpan _ _).bind fun span _ => ?_
    rw [hinit]
    exact (Sees.find _ _ _ _).bind fun equal _ => hnode (some equal) span
  exact fun session node last hrun => (hsees session node last hrun).2

end Rule

theorem Node.DeclaresLast.hasOperandBelow {node : Node} {source : Source} {finish : Nat}
    {slot : Slot} {scope : Scope} {operand : Expr}
    (h : node.DeclaresLast source finish (·.HasOperand slot scope operand)) :
    node.HasOperandBelow slot scope operand := by
  obtain ⟨declarator, hlast, hholds, -⟩ := h
  rw [lastDeclarator?] at hlast
  split at hlast
  · exact hholds.below.above (List.mem_of_getLast? hlast)
  · obtain ⟨declared, hdeclared, hlast⟩ := Option.bind_eq_some_iff.1 hlast
    exact (hholds.below.above (List.mem_of_getLast? hlast)).above (List.mem_of_getLast? hdeclared)

theorem Binding.endsIn_initializer {scope : Scope} {operand : Expr} {inner : Operator}
    {binding : Binding} (hinner : operand.operator? = some inner)
    (hvariable : binding.isVariable = true) (hinit : binding.init = some operand) :
    EndsIn scope binding.recover (·.HasOperandBelow .initializer scope operand) := by
  have hsound : (operand.fragmentOf operand.recover).Sound False := (operand.sound False).builds
  obtain ⟨range, name, init, kind, isFunctionDeclaration⟩ := binding
  obtain rfl : init = some operand := hinit
  simp only [isVariable, Bool.and_eq_true, Bool.not_eq_true', bne_iff_ne, ne_eq] at hvariable
  obtain ⟨⟨-, rfl⟩, hname⟩ := hvariable
  have hrule : EndsIn scope (Rule.binding ⟨range, name,
      some (operand.fragmentOf operand.recover), kind, false⟩)
        (·.HasOperandBelow .initializer scope operand) := by
    have hreturns : Returns scope (Rule.declaration ⟨range, name,
        some (operand.fragmentOf operand.recover), kind, false⟩)
          (·.HasOperand .initializer scope operand) := by
      refine Rule.returns_declaration ?_ hinner rfl
      rintro fragment ⟨⟩
      exact hsound
    intro session value last hrun
    obtain ⟨node, hlast, hdeclares⟩ :=
      Rule.endsIn_binding hreturns hname rfl session value last hrun
    exact ⟨node, hlast, hdeclares.hasOperandBelow⟩
  -- An operand has an operator, so it is no class, and the binding is recovered by the rule for all
  -- others.
  cases operand with
  | classDef definition => cases hinner
  | _ => exact hrule

/-! ## All slots -/

/-- What is recovered with the operand in one of its slots. -/
inductive Slot.Of : Slot → Recover Unit → Expr → Prop where
  | only {range : Range} {operator : Operator} {operand : Expr} (whole : operator ≠ .construct) :
      Of (.only operator) (Expr.unary range operator operand).recover operand
  | left {range : Range} {operator : Operator} {left right : Expr} :
      Of (.left operator) (Expr.binary range operator left right).recover left
  | right {range : Range} {operator : Operator} {left right : Expr} :
      Of (.right operator) (Expr.binary range operator left right).recover right
  | test {range : Range} {test consequent alternate : Expr} :
      Of .test (Expr.conditional range test consequent alternate).recover test
  | branch {range : Range} {test consequent alternate branch : Expr}
      (mem : branch ∈ [consequent, alternate]) :
      Of .branch (Expr.conditional range test consequent alternate).recover branch
  | callee {range : Range} {callee : Expr} {arguments : List Expr} :
      Of .object (Expr.call range callee arguments).recover callee
  | base {range : Range} {base : Expr} {property : String} :
      Of .object (Expr.access range base property).recover base
  | indexed {range : Range} {base index : Expr} :
      Of .object (Expr.index range base index).recover base
  | index {range : Range} {base index : Expr} :
      Of .index (Expr.index range base index).recover index
  | argument {range : Range} {callee argument : Expr} {arguments : List Expr}
      (mem : argument ∈ arguments) :
      Of .argument (Expr.call range callee arguments).recover argument
  | element {range : Range} {element : Expr} {elements : List (Option Expr)}
      (mem : some element ∈ elements) :
      Of .element (Expr.array range elements).recover element
  | value {member : Member} {operand : Expr} (getter : member.getter = none)
      (setter : member.setter = none) (value : member.value = some operand)
      (apart : operand.range ≠ member.key.range) : Of .value (Rule.member member.fragment) operand
  | initializer {binding : Binding} {operand : Expr} (isVariable : binding.isVariable = true)
      (init : binding.init = some operand) : Of .initializer binding.recover operand
  | default {definition : FunctionDef} {parameter : Ident} {operand : Expr}
      (isSingle : parameter.isRest = false) (isDefault : parameter.isDefault = true)
      (value : definition.defaultOf? parameter = some operand) :
      Of .default (Rule.parameter definition.fragment parameter) operand
  | body {definition : FunctionDef} {operand : Expr} (kind : definition.kind = .arrow)
      (body : definition.body.IsValue operand) :
      Of .body (Expr.functionDef definition).recover operand

/-- Whatever the construct is, the last node that is attached has its operands below it. -/
theorem Slot.Of.endsIn {slot : Slot} {construct : Recover Unit} {operand : Expr} {inner : Operator}
    {scope : Scope} (h : slot.Of construct operand) (hinner : operand.operator? = some inner) :
    EndsIn scope construct (·.HasOperandBelow slot scope operand) := by
  -- most constructs have the slot in their own node
  have hputs : ∀ {action : Recover Unit}, Puts scope action (·.HasOperand slot scope operand) →
      EndsIn scope action (·.HasOperandBelow slot scope operand) :=
    fun hholds => (hholds.mono fun _ hnode => hnode.below).endsIn
  cases h with
  | only whole => exact hputs (Expr.puts_unary whole _ _)
  | left => exact hputs ((Expr.puts_binary _ _ _ _).mono fun _ hnode => hnode.1)
  | right => exact hputs ((Expr.puts_binary _ _ _ _).mono fun _ hnode => hnode.2)
  | test => exact hputs ((Expr.puts_conditional _ _ _ _).mono fun _ hnode => hnode.1)
  | branch mem => exact hputs ((Expr.puts_conditional _ _ _ _).mono fun _ hnode => hnode.2 _ mem)
  | callee => exact hputs ((Expr.puts_call _ _ _).mono fun _ hnode => hnode.1)
  | base => exact hputs (Expr.puts_access _ _ _)
  | indexed => exact hputs ((Expr.puts_index _ _ _).mono fun _ hnode => hnode.1)
  | index => exact hputs ((Expr.puts_index _ _ _).mono fun _ hnode => hnode.2)
  | argument mem => exact ((Expr.puts_call _ _ _).mono fun _ hnode => hnode.2 _ mem).endsIn
  | element mem => exact hputs ((Expr.puts_array _ _).mono fun _ hnode => hnode _ mem)
  | value getter setter value apart =>
    exact hputs (Rule.puts_memberWith hinner getter setter value apart)
  | initializer isVariable init => exact Binding.endsIn_initializer hinner isVariable init
  | default isSingle isDefault value =>
    exact hputs (Rule.puts_default hinner isSingle isDefault (FunctionDef.lookup_defaults value))
  | body kind body =>
    refine ((Rule.puts_arrow hinner kind body).mono ?_).endsIn
    exact fun node hnode => ⟨_, node.unexported_mem_preorder, hnode⟩

/-- An operand that applies an operator is put in a group just if its slot groups that operator, by
precedence or because it is the object of a call or of an access. In a slot that asks for
parentheses by a rule of its own this is never so: the node of the operand is a child of what holds
it. -/
theorem operand_stands_in_slot {scope : Scope} {slot : Slot} {construct : Recover Unit}
    {operand : Expr} {inner : Operator} (hslot : slot.Of construct operand)
    (hinner : operand.operator? = some inner) {session last : Session}
    (hrun : construct.outcome scope session = (.ok (), last)) :
    ∃ node holder made, last.stack.lastChild? = some node ∧ holder ∈ node.preorder ∧
      slot.isHeldBy holder.kind = true ∧ operand.Attaches scope made ∧
      (if slot.groups inner then made.grouped else made) ∈ holder.children ∧
      (slot.asksParens inner = true → made ∈ holder.children) := by
  obtain ⟨node, hlast, holder, hbelow, hholds⟩ := hslot.endsIn hinner session () last hrun
  obtain ⟨made, hmade, hmem⟩ := hholds.stands inner hinner
  refine ⟨node, holder, made, hlast, hbelow, hholds.kind, hmade, hmem, fun hasks => ?_⟩
  rwa [Slot.groups_of_asksParens hasks, if_neg Bool.false_ne_true] at hmem

/-- Two names with a comma between them. -/
def Expr.sampleComma (start : Nat) : Expr :=
  .binary ⟨start, start + 4⟩ .comma (.ident ⟨⟨start, start + 1⟩, "a", false, false⟩)
    (.ident ⟨⟨start + 3, start + 4⟩, "b", false, false⟩)

/-- A comma stands in a group as the branch of a conditional, but not as an argument. Nor does a
sign stand in a group in front of a power. -/
theorem groups_of_sampleComma :
    let choice : Expr := .conditional ⟨0, 14⟩ (.ident ⟨⟨0, 1⟩, "c", false, false⟩) (.sampleComma 5)
      (.ident ⟨⟨13, 14⟩, "d", false, false⟩)
    let call : Expr := .call ⟨0, 9⟩ (.ident ⟨⟨0, 1⟩, "f", false, false⟩) [.sampleComma 3]
    let negated : Expr := .unary ⟨1, 3⟩ .minus (.ident ⟨⟨2, 3⟩, "a", false, false⟩)
    let power : Expr := .binary ⟨0, 9⟩ .power negated (.ident ⟨⟨8, 9⟩, "b", false, false⟩)
    let chosen := Scope.of "c ? (a, b) : d" none .unforgiving
    let called := Scope.of "f((a, b))" none .unforgiving
    let raised := Scope.of "(-a) ** b" none .unforgiving
    (∃ later, choice.recover.outcome chosen (.start chosen.source) = (.ok (), later) ∧
      ∃ node holder made : Node, later.stack.lastChild? = some node ∧ holder ∈ node.preorder ∧
        Slot.branch.isHeldBy holder.kind = true ∧ made.kind.isOperation = true ∧
        made.grouped ∈ holder.children) ∧
      (∃ later, call.recover.outcome called (.start called.source) = (.ok (), later) ∧
        ∃ node holder made : Node, later.stack.lastChild? = some node ∧ holder ∈ node.preorder ∧
          Slot.argument.isHeldBy holder.kind = true ∧ made.kind.isOperation = true ∧
          made ∈ holder.children) ∧
      ∃ later, power.recover.outcome raised (.start raised.source) = (.ok (), later) ∧
        ∃ node holder made : Node, later.stack.lastChild? = some node ∧ holder ∈ node.preorder ∧
          holder.kind.isOperation = true ∧ made.kind.isOperation = true ∧
          made ∈ holder.children := by
  intro choice call negated power chosen called raised
  refine ⟨?_, ?_, ?_⟩
  · have hrun : choice.recover.outcome chosen (.start chosen.source) = (.ok (), _) :=
      Prod.ext (by decide +kernel) rfl
    obtain ⟨node, holder, made, hlast, hbelow, hheld, hmade, hmem, -⟩ :=
      operand_stands_in_slot (.branch List.mem_cons_self) rfl hrun
    exact ⟨_, hrun, node, holder, made, hlast, hbelow, hheld, hmade.operation, hmem⟩
  · have hrun : call.recover.outcome called (.start called.source) = (.ok (), _) :=
      Prod.ext (by decide +kernel) rfl
    obtain ⟨node, holder, made, hlast, hbelow, hheld, hmade, -, hmem⟩ :=
      operand_stands_in_slot (.argument List.mem_cons_self) rfl hrun
    exact ⟨_, hrun, node, holder, made, hlast, hbelow, hheld, hmade.operation, hmem rfl⟩
  · have hrun : power.recover.outcome raised (.start raised.source) = (.ok (), _) :=
      Prod.ext (by decide +kernel) rfl
    obtain ⟨node, holder, made, hlast, hbelow, hheld, hmade, -, hmem⟩ :=
      operand_stands_in_slot .left rfl hrun
    exact ⟨_, hrun, node, holder, made, hlast, hbelow, hheld, hmade.operation, hmem rfl⟩

end Concretion
