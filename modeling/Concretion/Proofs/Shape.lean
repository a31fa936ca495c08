import Concretion.Proofs.Growth.Operators
import Concretion.Proofs.Order
import Concretion.Recovery.Rule.Binding

/-!
# The shape of concrete trees

The kind of a node says what its children are. Most kinds of expressions have a fixed number of
them, and some ask for more than that. A kind without such a rule takes any children.

- `NodeKind.admits`: are the children what the kind prescribes?
- `Node.WellShaped`: all nodes of the tree have the children that their kinds prescribe.
- `NodeKind.Accepts`: well-shaped nodes that the kind admits as children.
- `Shapes`: computations that put a single node behind the children, and that one is well-shaped.
- `KeepsShape`: computations after which all children are well-shaped, if they were at first.
-/

namespace Concretion

/-! ## Children of kinds -/

namespace NodeKind

/-- Is this a node of an identifier? -/
def isIdentifier : NodeKind → Bool
  | identifier _ => true
  | _ => false

/-- Is this a node of a declarator? -/
def isDeclaration : NodeKind → Bool
  | declaration _ => true
  | _ => false

/-- Is this a node of a parameter? -/
def isParameter : NodeKind → Bool
  | identifier _ | restElement _ | declaration _ => true
  | _ => false

/-- Is this a node of an argument list? -/
def isArguments : NodeKind → Bool
  | arguments .. => true
  | _ => false

/-- Is this a `catch` clause, or the placeholder of one? -/
def isHandler : NodeKind → Bool
  | catchClause | empty => true
  | _ => false

/-- Is this a `finally` clause, or the placeholder of one? -/
def isFinalizer : NodeKind → Bool
  | finallyClause _ | empty => true
  | _ => false

/-- Is this a specifier of an import statement? -/
def isSpecifier : NodeKind → Bool
  | importSpecifier _ => true
  | _ => false

/-- Are these kinds those of the children that nodes of the kind must have? -/
def admits (kind : NodeKind) (children : List NodeKind) : Bool :=
  match kind with
  | empty | elision | identifier _ | number _ | string _ | regex _ | trueLiteral _ | falseLiteral _
  | nullLiteral _ | emptyStatement | breakStatement _ | continueStatement _ => children.isEmpty
  | preUnary _ | postUnary _ | spreadElement _ | yield _ | group | throwStatement
  | returnStatement | finallyClause _ | computedName | restElement _ => children.length == 1
  | assignment _ | binaryArithmetic _ | binaryBoolean _ | comma _ | getElement .. | declaration _ =>
    children.length == 2
  | getProperty _ => children.length == 2 && children[1]?.any isIdentifier
  | conditional .. | forIn .. | forOf .. | ifElse .. => children.length == 3
  | forLoop .. => children.length == 4
  | tryCatch =>
    children.length == 3 && children[1]?.any isHandler && children[2]?.any isFinalizer
  | invoke | construct _ =>
    children.length == 1 || (children.length == 2 && children[1]?.any isArguments)
  | nameValuePair colon => children.length == if colon.isSome then 2 else 1
  | var _ => !children.isEmpty && children.all isDeclaration
  | parameters .. => children.all isParameter
  | importStatement .. => children.all isSpecifier
  | importSpecifier _ => !children.isEmpty && children.all isIdentifier
  | exportStatement _ _ path => children.length == if path.isSome then 0 else 1
  | _ => true

end NodeKind

namespace Node

/-- All nodes of the tree have the children that their kinds prescribe. -/
def WellShaped (node : Node) : Prop :=
  ∀ part ∈ node.preorder, part.kind.admits (part.children.map Node.kind) = true

end Node

/-- The nodes are well-shaped, and the kind admits them as its children. -/
structure NodeKind.Accepts (kind : NodeKind) (children : List Node) : Prop where
  admitted : kind.admits (children.map Node.kind) = true
  shaped : ∀ child ∈ children, child.WellShaped

namespace Node

theorem wellShaped_iff {node : Node} : node.WellShaped ↔ node.kind.Accepts node.children := by
  constructor
  · intro h
    constructor
    · exact h node (mem_preorder.2 (.inl rfl))
    · intro child hchild part hpart
      exact h part (mem_preorder.2 (.inr ⟨child, hchild, hpart⟩))
  · rintro ⟨hadmits, hchildren⟩ part hpart
    rcases mem_preorder.1 hpart with rfl | ⟨child, hchild, hpart⟩
    · exact hadmits
    · exact hchildren child hchild part hpart

/-- Neither the place of a node nor its semicolon makes a difference. -/
theorem WellShaped.moved {node made : Node} (h : node.WellShaped) (hkind : made.kind = node.kind)
    (hchildren : made.children = node.children) : made.WellShaped := by
  rw [wellShaped_iff] at h ⊢
  rwa [hkind, hchildren]

theorem WellShaped.children {node : Node} (h : node.WellShaped) :
    ∀ child ∈ node.children, child.WellShaped :=
  (wellShaped_iff.1 h).shaped

theorem wellShaped_leaf {kind : NodeKind} (h : kind.admits [] = true) (span : Span) :
    (leaf kind span).WellShaped :=
  wellShaped_iff.2 ⟨h, List.forall_mem_nil _⟩

/-- An operand is well-shaped, whether or not it is in a group. -/
theorem WellShaped.beside {node : Node} (h : node.WellShaped) (operator? : Option Operator)
    (outer : Operator) (side : Operator.Side) : (node.beside operator? outer side).WellShaped := by
  rw [Node.beside]
  split
  · exact wellShaped_iff.2 ⟨rfl, List.forall_mem_singleton.2 h⟩
  · exact h

theorem WellShaped.asObject {node : Node} (h : node.WellShaped) (operator? : Option Operator) :
    (node.asObject operator?).WellShaped := by
  rw [Node.asObject]
  split
  · exact wellShaped_iff.2 ⟨rfl, List.forall_mem_singleton.2 h⟩
  · exact h

end Node

/-! ## What computations make of the shape -/

namespace Recover

variable {scope : Scope} {kind : NodeKind} {span : Span}

/-- The computation puts a well-shaped node behind the children. -/
abbrev Shapes (scope : Scope) (action : Recover Unit) : Prop := Appends scope action Node.WellShaped

/-- If all children are well-shaped at first, they are so after the computation. -/
def KeepsShape (scope : Scope) (action : Recover Unit) : Prop :=
  ∀ children, (∀ child ∈ children, child.WellShaped) →
    Gives scope children action fun _ after => ∀ child ∈ after, child.WellShaped

/-- A node that is opened is well-shaped if its kind accepts what is attached to it. -/
theorem Looks.shaped {body : Recover Unit} (h : Gives scope [] body fun _ => kind.Accepts) :
    Looks scope (Recover.within (.leaf kind span) body) Node.WellShaped := by
  refine (Looks.within h).mono ?_
  rintro made ⟨hkind, haccepts⟩
  exact Node.wellShaped_iff.2 (hkind ▸ haccepts)

theorem Shapes.enter {body : Recover Unit} (h : Gives scope [] body fun _ => kind.Accepts) :
    Shapes scope (Recover.enter (.leaf kind span) body) :=
  .attached (.shaped h)

namespace Shapes

variable {action other : Recover Unit}

/-- The only child of a node. -/
theorem alone (h : Shapes scope action) (hkind : ∀ child, kind.admits [child] = true) :
    Gives scope [] action fun _ => kind.Accepts := by
  refine (h []).mono ?_
  rintro _ _ ⟨child, rfl, hchild⟩
  exact ⟨hkind _, List.forall_mem_singleton.2 hchild⟩

/-- Both children of a node. -/
theorem paired (h : Shapes scope action) (ho : Shapes scope other)
    (hkind : ∀ first second, kind.admits [first, second] = true) :
    Gives scope [] (action >>= fun _ => other) fun _ => kind.Accepts := by
  refine h.andThen fun first hfirst => (ho _).mono ?_
  rintro _ _ ⟨second, rfl, hsecond⟩
  refine ⟨hkind _ _, List.forall_mem_cons.2 ⟨hfirst, ?_⟩⟩
  exact List.forall_mem_singleton.2 hsecond

end Shapes

namespace KeepsShape

variable {action : Recover Unit}

theorem pure : KeepsShape scope (Pure.pure ()) := fun _ h => .pure h

theorem throw {failure : Failure} : KeepsShape scope (throw failure) := fun _ _ => .throw

theorem ofShapes (h : Shapes scope action) : KeepsShape scope action := by
  intro children hchildren
  refine (h children).mono ?_
  rintro _ _ ⟨child, rfl, hchild⟩
  exact List.forall_mem_append.2 ⟨hchildren, List.forall_mem_singleton.2 hchild⟩

theorem andThen {next : Recover Unit} (h : KeepsShape scope action) (hn : KeepsShape scope next) :
    KeepsShape scope (action >>= fun _ => next) :=
  fun children hchildren => (h children hchildren).bind fun _ between => hn between

theorem after {α : Type} {look : Recover α} {found : α → Prop} {next : α → Recover Unit}
    (h : Looks scope look found) (hn : ∀ value, found value → KeepsShape scope (next value)) :
    KeepsShape scope (look >>= next) :=
  fun children hchildren => h.andThen fun value hfound => hn value hfound children hchildren

theorem forM {γ : Type} {step : γ → Recover Unit} {list : List γ}
    (h : ∀ item ∈ list, KeepsShape scope (step item)) : KeepsShape scope (list.forM step) := by
  induction list with
  | nil => exact pure
  | cons item rest ih =>
    obtain ⟨hitem, hrest⟩ := List.forall_mem_cons.1 h
    show KeepsShape scope (step item >>= fun _ => rest.forM step)
    exact hitem.andThen (ih hrest)

/-- The stack may be looked at in between. -/
theorem stack {next : Stack → Recover Unit} (h : ∀ stack, KeepsShape scope (next stack)) :
    KeepsShape scope (getStack >>= next) := by
  intro children hchildren
  refine Gives.getStack.bind ?_
  rintro stack _ ⟨rfl, -⟩
  exact h stack _ hchildren

theorem reorder (permutation : List Nat) : KeepsShape scope (reorder permutation) := by
  intro children hchildren
  refine (Gives.reorder permutation).mono ?_
  rintro _ _ rfl child hchild
  obtain ⟨index, -, hindex⟩ := List.mem_filterMap.1 hchild
  exact hchildren child (List.mem_of_getElem? hindex)

/-- A kind that takes any children accepts what is attached to its node. -/
theorem below (h : KeepsShape scope action) (hkind : ∀ kinds, kind.admits kinds = true) :
    Gives scope [] action fun _ => kind.Accepts :=
  (h [] (List.forall_mem_nil _)).mono fun _ _ hafter => ⟨hkind _, hafter⟩

theorem enter (h : KeepsShape scope action) (hkind : ∀ kinds, kind.admits kinds = true) :
    Shapes scope (Recover.enter (.leaf kind span) action) :=
  .enter (h.below hkind)

end KeepsShape

/-- There are as many children in the end as the number says, well-shaped if they were at first. -/
def Counts (scope : Scope) (count : Nat) (action : Recover Unit) : Prop :=
  ∀ children, (∀ child ∈ children, child.WellShaped) →
    Gives scope children action fun _ after =>
      after.length = count ∧ ∀ child ∈ after, child.WellShaped

namespace Counts

variable {action : Recover Unit} {count : Nat}

theorem expectChildren : Counts scope count (expectChildren count) := by
  intro children hchildren
  refine (Gives.expectChildren count).mono ?_
  rintro _ _ ⟨rfl, hcount⟩
  exact ⟨hcount, hchildren⟩

theorem after {first : Recover Unit} (h : KeepsShape scope first) (hn : Counts scope count action) :
    Counts scope count (first >>= fun _ => action) :=
  fun children hchildren => (h children hchildren).bind fun _ between => hn between

theorem stack {next : Stack → Recover Unit} (h : ∀ stack, Counts scope count (next stack)) :
    Counts scope count (getStack >>= next) := by
  intro children hchildren
  refine Gives.getStack.bind ?_
  rintro stack _ ⟨rfl, -⟩
  exact h stack _ hchildren

/-- The number of children is made sure of while the node is still open. -/
theorem accepts (h : Counts scope count action)
    (hkind : ∀ kinds : List NodeKind, kinds.length = count → kind.admits kinds = true) :
    Gives scope [] action fun _ => kind.Accepts := by
  refine (h [] (List.forall_mem_nil _)).mono ?_
  rintro _ after ⟨hcount, hshaped⟩
  exact ⟨hkind _ (List.length_map _ |>.trans hcount), hshaped⟩

end Counts

end Recover

end Concretion
