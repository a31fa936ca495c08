import Concretion.Proofs.Exactness
import Concretion.Proofs.Growth.Operators

/-!
# Fallback positions

Where missing tokens are not a failure, the recovery of an operator expression always comes to a
tree: an operator that is missing is put at the start of the window in which it was looked for. The
invariants of the tree are another matter. An operator must lie inside of its node, but neither the
fallback position nor the searches take the length of the operator into account.

- `Expr.Nested`: operator expressions whose ranges are nested and lie in the text.
- `Expr.placements`: where each operator is put, and where its node finishes.
- `Reaches`: computations that succeed, whatever tokens are missing.
- `fallbacks_are_valid_iff`: the tree passes the check just if every operator fits into its node.
-/

namespace Concretion

open Recover

/-! ## Expressions in a text -/

/-- The range is a stretch of the text. -/
structure Range.LiesIn (range : Range) (source : Source) : Prop where
  nonempty : range.start < range.finish
  finish : range.finish ≤ source.size
  startBoundary : source.isBoundary range.start = true
  finishBoundary : source.isBoundary range.finish = true

/-- The expression is made up of identifiers, prefix operators, operators between two operands, and
conditionals. Each range lies in the text and around the ranges of the operands, of which each ends
before the next one starts. -/
inductive Expr.Nested (source : Source) : Expr → Prop where
  | ident {name : Ident} (hrange : name.range.LiesIn source) : Nested source (.ident name)
  | unary {range : Range} {operator : Operator} {operand : Expr} {spelling : String}
      {form : UnaryForm} (hform : operator.unaryForm = some (spelling, form))
      (hfront : form ≠ .after) (hrange : range.LiesIn source) (hoperand : operand.Nested source)
      (hstart : range.start ≤ operand.range.start) (hfinish : operand.range.finish ≤ range.finish) :
      Nested source (.unary range operator operand)
  | binary {range : Range} {operator : Operator} {left right : Expr} {spelling : String}
      {form : BinaryForm} (hform : operator.binaryForm = some (spelling, form))
      (hrange : range.LiesIn source) (hleft : left.Nested source) (hright : right.Nested source)
      (hstart : range.start ≤ left.range.start) (hgap : left.range.finish ≤ right.range.start)
      (hfinish : right.range.finish ≤ range.finish) :
      Nested source (.binary range operator left right)
  | conditional {range : Range} {test consequent alternate : Expr} (hrange : range.LiesIn source)
      (htest : test.Nested source) (hconsequent : consequent.Nested source)
      (halternate : alternate.Nested source) (hstart : range.start ≤ test.range.start)
      (hquestion : test.range.finish ≤ consequent.range.start)
      (hcolon : consequent.range.finish ≤ alternate.range.start)
      (hfinish : alternate.range.finish ≤ range.finish) :
      Nested source (.conditional range test consequent alternate)

/-! ## Placements -/

namespace Source

variable (source : Source)

/-- Where an operator between two operands is put: where it stands between the two offsets, or else
at the first one. -/
def infixPlace (spelling : String) (start finish : Nat) : Nat :=
  if (Token.ofOperator spelling).kind == .keyword then
    (source.findWord spelling start finish).getD start
  else (source.find spelling start finish).getD start

/-- Where an operator in front of its operand is put. -/
def prefixPlace (spelling : String) (start finish : Nat) : Nat :=
  if source.slice start (start + (Token.ofOperator spelling).length) == some spelling then start
  else (source.find spelling start finish).getD start

end Source

/-- Where an operator is put, and where its node finishes. -/
structure Placement where
  token : Token
  offset : Nat
  finish : Nat
  deriving DecidableEq, Repr

/-- The operator finishes no later than its node. -/
def Placement.IsInside (placement : Placement) : Prop :=
  placement.offset + placement.token.length ≤ placement.finish

instance (placement : Placement) : Decidable placement.IsInside :=
  inferInstanceAs (Decidable (_ ≤ _))

/-- Where the operators of an expression are put, those of conditionals aside. -/
def Expr.placements (source : Source) (expr : Expr) : List Placement :=
  match expr with
  | .unary range operator operand =>
    (operator.unaryForm.toList.map fun (spelling, _) =>
      ⟨.ofOperator spelling, source.prefixPlace spelling range.start operand.range.start,
        range.finish⟩) ++ operand.placements source
  | .binary range operator left right =>
    (operator.binaryForm.toList.map fun (spelling, _) =>
      ⟨.ofOperator spelling, source.infixPlace spelling left.range.finish right.range.start,
        range.finish⟩) ++ (left.placements source ++ right.placements source)
  | .conditional _ test consequent alternate =>
    test.placements source ++ (consequent.placements source ++ alternate.placements source)
  | _ => []
termination_by structural expr

namespace Expr

variable {source : Source} {range : Range} {operator : Operator} {spelling : String}

theorem placements_unary {form : UnaryForm} (h : operator.unaryForm = some (spelling, form))
    (operand : Expr) :
    (Expr.unary range operator operand).placements source =
      ⟨.ofOperator spelling, source.prefixPlace spelling range.start operand.range.start,
        range.finish⟩ :: operand.placements source := by
  rw [placements, h]
  rfl

theorem placements_binary {form : BinaryForm} (h : operator.binaryForm = some (spelling, form))
    (left right : Expr) :
    (Expr.binary range operator left right).placements source =
      ⟨.ofOperator spelling, source.infixPlace spelling left.range.finish right.range.start,
        range.finish⟩ :: (left.placements source ++ right.placements source) := by
  rw [placements, h]
  rfl

end Expr

namespace Source

variable {source : Source}

theorem getD_bounds {found : Option Nat} {start finish : Nat}
    (h : ∀ offset, found = some offset → start ≤ offset ∧ offset < finish) :
    start ≤ found.getD start ∧ (found.getD start < finish ∨ found.getD start = start) := by
  cases found with
  | none => exact ⟨Nat.le_refl _, .inr rfl⟩
  | some offset => exact ⟨(h offset rfl).1, .inl (h offset rfl).2⟩

theorem le_infixPlace (spelling : String) (start finish : Nat) :
    start ≤ source.infixPlace spelling start finish := by
  rw [infixPlace]
  split
  · exact (getD_bounds fun _ => findWord_bounds).1
  · exact (getD_bounds fun _ => find_bounds).1

theorem le_prefixPlace (spelling : String) (start finish : Nat) :
    start ≤ source.prefixPlace spelling start finish := by
  rw [prefixPlace]
  split
  · exact Nat.le_refl _
  · exact (getD_bounds fun _ => find_bounds).1

end Source

/-! ## Runs without failure -/

namespace Recover

variable {α β : Type} {scope : Scope} {before middle after : Stack}

/-- On the stack `before` the computation yields the value and leaves the stack `after` behind,
though it may miss tokens. -/
def Reaches (scope : Scope) (before : Stack) (action : Recover α) (value : α) (after : Stack) :
    Prop :=
  ∀ session : Session, session.stack = before → session.skipsName = false →
    ∃ later, action.outcome scope session = (.ok value, later) ∧ later.stack = after ∧
      later.skipsName = false

namespace Reaches

theorem of_yields {action : Recover α} {value : α} (h : Yields scope before action value after) :
    Reaches scope before action value after := by
  intro session hstack hskips
  obtain ⟨later, hrun, hlast, -, hskips', -⟩ := h session hstack hskips
  exact ⟨later, hrun, hlast, hskips'⟩

theorem bind {action : Recover α} {next : α → Recover β} {value : α} {result : β}
    (h : Reaches scope before action value middle)
    (hn : Reaches scope middle (next value) result after) :
    Reaches scope before (action >>= next) result after := by
  intro session hstack hskips
  obtain ⟨later, hrun, hstack, hskips⟩ := h session hstack hskips
  obtain ⟨last, hrun', hstack', hskips'⟩ := hn later hstack hskips
  exact ⟨last, (outcome_bind_ok hrun).trans hrun', hstack', hskips'⟩

theorem within {node closed covered : Node} {body : Recover Unit}
    (hbody : Reaches scope (before.push node) body () (before.push closed))
    (hcover : closed.cover = .ok covered) :
    Reaches scope before (within node body) covered before := by
  intro session hstack hskips
  subst hstack
  obtain ⟨later, hrun, hstack, hskips'⟩ := hbody (session.opening node) rfl hskips
  refine ⟨later.closing session.stack closed.kind, ?_, rfl, hskips'⟩
  rw [outcome_within hrun hstack, hcover]
  rfl

theorem enter {node closed covered : Node} {body : Recover Unit}
    (hbody : Reaches scope (before.push node) body () (before.push closed))
    (hcover : closed.cover = .ok covered) :
    Reaches scope before (enter node body) () (before.attach covered) :=
  (within hbody hcover).bind (of_yields (.attach covered))

/-! ### Tokens -/

variable (hlenient : scope.strict = false)
include hlenient

/-- A missing token is noted down, and its fallback is used. -/
theorem settle (found : Except Missing α) (fallback : α) :
    Reaches scope before (settle found fallback) (found.toOption.getD fallback) before := by
  cases found with
  | ok value => exact of_yields (.pure value)
  | error missing =>
    intro session hstack hskips
    refine ⟨{ session.note (.fallback missing) with
      warnings := session.warnings.push missing }, ?_, hstack, hskips⟩
    obtain ⟨source, info, strict⟩ := scope
    cases hlenient
    rfl

theorem find (token : Token) (context : String) (start finish : Nat) :
    Reaches scope before (find token context start finish)
      (token.symbolAt ((scope.source.find token.text start finish).getD start)) before := by
  have hplace : (scope.source.locate context token.text start finish).toOption.getD start =
      (scope.source.find token.text start finish).getD start := by
    rw [Source.locate]
    cases scope.source.find token.text start finish <;> rfl
  refine (of_yields .source).bind ((settle hlenient _ _).bind ?_)
  rw [hplace]
  exact of_yields (.symbolAt token _)

theorem findWord (word context : String) (start finish : Nat) :
    Reaches scope before (findWord word context start finish)
      ((Token.keyword word).symbolAt ((scope.source.findWord word start finish).getD start))
      before := by
  have hplace : (scope.source.locateWord context word start finish).toOption.getD start =
      (scope.source.findWord word start finish).getD start := by
    rw [Source.locateWord]
    cases scope.source.findWord word start finish <;> rfl
  refine (of_yields .source).bind ((settle hlenient _ _).bind ?_)
  rw [hplace]
  exact of_yields (.symbolAt (.keyword word) _)

/-- The operator of a prefix expression is put where it is said to be. -/
theorem findAtOrAfter (spelling context : String) (start finish : Nat) :
    Reaches scope before (findAtOrAfter (.ofOperator spelling) context start finish)
      ((Token.ofOperator spelling).symbolAt (scope.source.prefixPlace spelling start finish))
      before := by
  refine (of_yields .source).bind ?_
  rw [Source.prefixPlace, Token.text_ofOperator]
  split
  · exact of_yields (.symbolAt _ _)
  · have hfind : Reaches scope before (Recover.find (.ofOperator spelling) context start finish) _
        before := find hlenient _ _ _ _
    rwa [Token.text_ofOperator] at hfind

/-- The operator of a binary expression is put where it is said to be. -/
theorem operatorBetween (spelling : String) (start finish : Nat) :
    Reaches scope before (Rule.operatorBetween spelling start finish)
      ((Token.ofOperator spelling).symbolAt (scope.source.infixPlace spelling start finish))
      before := by
  rw [Rule.operatorBetween, Source.infixPlace]
  split
  · next hword =>
    have htoken : Token.ofOperator spelling = .keyword spelling := by
      have hkind := eq_of_beq hword
      have htext := Token.text_ofOperator spelling
      generalize Token.ofOperator spelling = token at hkind htext
      obtain ⟨kind, text⟩ := token
      cases hkind
      cases htext
      rfl
    rw [htoken]
    exact findWord hlenient spelling _ _ _
  · have hfind : Reaches scope before (Recover.find (.ofOperator spelling) "Binary" start finish) _
        before := find hlenient _ _ _ _
    rwa [Token.text_ofOperator] at hfind

end Reaches

end Recover

/-! ## Nodes that take up a range -/

namespace Node

/-- A node that takes up a range of its own, whether it passes the check or not. -/
structure Occupies (node : Node) (range : Range) : Prop where
  nonempty : range.start < range.finish
  span : node.span = range.span
  isPlaceholder : node.isPlaceholder = false
  kind : node.kind ≠ .invoke

/-- The children from here on pass the check if the trees do that are below them. -/
theorem checkChildren_occupies_iff {kind : NodeKind} {range inner : Range}
    {previous solid : Option Span} {child : Node} {rest : List Node} (h : child.Occupies inner)
    (hs : range.start ≤ inner.start) (hf : inner.finish ≤ range.finish)
    (hprevious : EndsBefore inner.start previous) (hsolid : EndsBefore inner.start solid) :
    checkChildren kind range.span previous solid (child :: rest) = .ok () ↔
      child.check = .ok () ∧
        checkChildren kind range.span (some inner.span) (some inner.span) rest = .ok () := by
  have hstart : child.span.start = inner.start := congrArg Span.start h.span
  have hinside : range.span.contains child.span = true := by
    rw [h.span]
    exact contains_range h.nonempty hs hf
  have hself : checkChild kind range.span previous solid child.kind child.span = .ok () := by
    refine checkChild_ok hinside (fun other hother => ?_) (.inr fun other hother => ?_)
    · have := hprevious other hother
      omega
    · have := hsolid other hother
      omega
  rw [checkChildren_cons_eq_ok_iff, h.isPlaceholder, h.span]
  exact and_iff_right (h.span ▸ hself)

namespace Occupies

variable {node : Node} {range : Range}

theorem ordered (h : node.Occupies range) : node.span.Ordered := by
  rw [h.span]
  exact Span.ordered_ofBounds _ _

/-- Parentheses make no difference to the check. -/
theorem beside (h : node.Occupies range) (inner : Option Operator) (outer : Operator)
    (side : Operator.Side) :
    (node.beside inner outer side).Occupies range ∧
      ((node.beside inner outer side).check = .ok () ↔ node.check = .ok ()) := by
  rw [Node.beside]
  split
  · refine ⟨⟨h.nonempty, h.span, rfl, NodeKind.noConfusion⟩, ?_⟩
    rw [Node.grouped, h.span, check_branch_iff rfl rfl, checkChildren_occupies_iff h (Nat.le_refl _)
      (Nat.le_refl _) (endsBefore_none _) (endsBefore_none _)]
    exact ⟨fun hboth => hboth.2.1, fun hcheck => ⟨List.forall_mem_nil _, hcheck, rfl⟩⟩
  · exact ⟨h, Iff.rfl⟩

end Occupies

/-- A node over a range covers its children as it is, if they lie inside. -/
theorem cover_branch {kind : NodeKind} {range : Range} {children : List Node}
    (h : ∀ child ∈ children, ∃ inner, child.Occupies inner ∧ range.start ≤ inner.start ∧
      inner.finish ≤ range.finish) :
    (branch kind range.span children).cover = .ok (branch kind range.span children) := by
  refine cover_of_contains (Span.ordered_ofBounds _ _) fun child hchild => ?_
  obtain ⟨inner, hoccupies, hstart, hfinish⟩ := h child hchild
  rw [hoccupies.span]
  exact contains_range hoccupies.nonempty hstart hfinish

/-- The symbol of an operator lies in its node just if the operator fits. -/
theorem contains_symbolAt_iff {token : Token} {range : Range} {offset : Nat}
    (hlength : 0 < token.length) (hstart : range.start ≤ offset)
    (hrange : range.start < range.finish) :
    range.span.contains (token.symbolAt offset).span = true ↔
      Placement.IsInside ⟨token, offset, range.finish⟩ := by
  rw [Span.contains_iff]
  simp only [Range.span, Span.ofBounds, Token.symbolAt, Placement.IsInside]
  omega

end Node

/-! ## Recovery of nested expressions -/

theorem Token.length_ofOperator_pos {spelling : String} (h : spelling ≠ "") :
    0 < (Token.ofOperator spelling).length := by
  rw [Token.length, Token.text_ofOperator, Nat.pos_iff_ne_zero]
  exact String.utf8ByteSize_eq_zero_iff.not.2 h

theorem Range.LiesIn.rangeSpan {range : Range} {source : Source} (h : range.LiesIn source) :
    source.rangeSpan range.start range.finish = .ok range.span := by
  have hordered := Nat.le_of_lt h.nonempty
  have hfinish := h.finish
  rw [Source.rangeSpan, h.startBoundary, h.finishBoundary, if_pos (by simp [hordered, hfinish])]
  rfl

/-- Whatever is open, the computation attaches the node to it, though it may miss tokens. -/
def Places (scope : Scope) (action : Recover Unit) (node : Node) : Prop :=
  ∀ stack : Stack, Reaches scope stack action () (stack.attach node)

/-- What an expression is recovered as when tokens may be missing: a node over its range, which
passes the check just if all operators fit. -/
structure Expr.Recovered (scope : Scope) (expr : Expr) (node : Node) : Prop where
  places : Places scope expr.recover node
  occupies : node.Occupies expr.range
  check : node.check = .ok () ↔ ∀ placement ∈ expr.placements scope.source, placement.IsInside

/-- An operand is put in a group if it must have been in parentheses. -/
theorem Expr.Recovered.beside {scope : Scope} {operand : Expr} {node : Node}
    (h : operand.Recovered scope node) (outer : Operator) (side : Operator.Side) :
    Places scope ((operand.fragmentOf operand.recover).buildBeside outer side)
      (node.beside operand.operator? outer side) := by
  intro stack
  refine (h.places stack).bind ?_
  rw [Node.beside]
  show Reaches scope _ (if operand.operator?.any (outer.needsParens · side) then _ else _) _ _
  split
  · exact .of_yields (.groupLastChild node)
  · exact .of_yields (.pure ())

/-! ### Operators -/

/-- The kinds of operator nodes are like each other. -/
structure NodeKind.Applies (kind : NodeKind) (symbol : Symbol) : Prop where
  isPlaceholder : kind.isPlaceholder = false
  arity : kind.arity? = none
  symbols : kind.symbols = [symbol]
  invoke : kind ≠ .invoke

theorem UnaryForm.applies (form : UnaryForm) (symbol : Symbol) :
    (form.nodeKind symbol).Applies symbol := by
  cases form <;> exact ⟨rfl, rfl, rfl, NodeKind.noConfusion⟩

theorem BinaryForm.applies (form : BinaryForm) (symbol : Symbol) :
    (form.nodeKind symbol).Applies symbol := by
  cases form <;> exact ⟨rfl, rfl, rfl, NodeKind.noConfusion⟩

namespace NodeKind.Applies

variable {kind : NodeKind} {symbol : Symbol} {range : Range} {children : List Node}

theorem occupies (h : kind.Applies symbol) (hrange : range.start < range.finish) :
    (Node.branch kind range.span children).Occupies range :=
  ⟨hrange, rfl, h.isPlaceholder, h.invoke⟩

/-- The node of an operator passes the check just if the operator fits and the operands pass it. -/
theorem check_iff {token : Token} {offset : Nat} (h : kind.Applies (token.symbolAt offset))
    (hlength : 0 < token.length) (hrange : range.start < range.finish)
    (hoffset : range.start ≤ offset) :
    (Node.branch kind range.span children).check = .ok () ↔
      Placement.IsInside ⟨token, offset, range.finish⟩ ∧
        Node.checkChildren kind range.span none none children = .ok () := by
  rw [Node.check_branch_iff h.isPlaceholder h.arity, h.symbols, List.forall_mem_singleton,
    Node.contains_symbolAt_iff hlength hoffset hrange]

end NodeKind.Applies

namespace Expr.Nested

variable {scope : Scope} {range : Range}

theorem recovered_ident {name : Ident} (hrange : name.range.LiesIn scope.source) :
    Recovered scope (.ident name)
      (.leaf (.identifier ⟨.identifier, name.range.span, name.name⟩) name.range.span) where
  places _ :=
    .of_yields (Yields.takeSkip.bind ((Yields.identifier hrange.rangeSpan).bind (.attach _)))
  occupies := ⟨hrange.nonempty, rfl, rfl, NodeKind.noConfusion⟩
  check := by
    refine ⟨fun _ => List.forall_mem_nil _, fun _ => ?_⟩
    exact (Node.check_branch_iff rfl rfl).2
      ⟨List.forall_mem_singleton.2 (by simp [Span.contains_iff]), rfl⟩

/-- The operand of a construction is no call here, so nothing is taken apart. -/
theorem reaches_operand {operator : Operator} {operand : Expr} {child : Node}
    (hchild : operand.Recovered scope child) (form : UnaryForm) (stack : Stack) (kind : NodeKind)
    (span : Span) :
    Reaches scope (stack.push (.leaf kind span)) (do
        (operand.fragmentOf operand.recover).buildBeside operator .right
        if form == .construct then modifyStack (·.modifyCurrent Node.flattenInvoke)) ()
      (stack.push (.branch kind span [child.beside operand.operator? operator .right])) := by
  have hbeside := (hchild.occupies.beside operand.operator? operator .right).1
  refine (hchild.beside operator .right (stack.push (.leaf kind span))).bind ?_
  split
  · have hflat : (stack.push (.branch kind span
        [child.beside operand.operator? operator .right])).modifyCurrent Node.flattenInvoke =
        stack.push (.branch kind span [child.beside operand.operator? operator .right]) := by
      rw [Stack.flattenInvoke_eq rfl, if_neg (by simpa using hbeside.kind)]
      rfl
    exact hflat ▸ .of_yields (.modifyStack _)
  · exact .of_yields (.pure ())

theorem recovered_unary (hlenient : scope.strict = false) {operator : Operator} {operand : Expr}
    {spelling : String} {form : UnaryForm} (hform : operator.unaryForm = some (spelling, form))
    (hfront : form ≠ .after) (hrange : range.LiesIn scope.source)
    (hstart : range.start ≤ operand.range.start) (hfinish : operand.range.finish ≤ range.finish)
    {child : Node} (hchild : operand.Recovered scope child) :
    ∃ node, Recovered scope (.unary range operator operand) node := by
  obtain ⟨hoccupies, hcheck⟩ := hchild.occupies.beside operand.operator? operator .right
  let place := scope.source.prefixPlace spelling range.start operand.range.start
  let symbol := (Token.ofOperator spelling).symbolAt place
  have happlies := form.applies symbol
  refine ⟨.branch (form.nodeKind symbol) range.span
    [child.beside operand.operator? operator .right], fun stack => ?_,
    happlies.occupies hrange.nonempty, ?_⟩
  · refine (Reaches.of_yields (.rangeSpan hrange.rangeSpan)).bind ?_
    rw [hform]
    dsimp only
    rw [if_neg (by simpa using hfront)]
    refine (Reaches.findAtOrAfter hlenient _ _ _ _).bind ?_
    exact .enter (reaches_operand hchild form stack _ _)
      (Node.cover_branch (List.forall_mem_singleton.2 ⟨_, hoccupies, hstart, hfinish⟩))
  · rw [happlies.check_iff (Token.length_ofOperator_pos (Operator.spelling_ne_of_unaryForm hform))
      hrange.nonempty (scope.source.le_prefixPlace _ _ _),
      Node.checkChildren_occupies_iff hoccupies hstart hfinish (Node.endsBefore_none _)
        (Node.endsBefore_none _), hcheck, hchild.check, placements_unary hform,
          List.forall_mem_cons]
    exact ⟨fun ⟨hfits, hall, _⟩ => ⟨hfits, hall⟩, fun ⟨hfits, hall⟩ => ⟨hfits, hall, rfl⟩⟩

theorem recovered_binary (hlenient : scope.strict = false) {operator : Operator}
    {left right : Expr} {spelling : String} {form : BinaryForm}
    (hform : operator.binaryForm = some (spelling, form)) (hrange : range.LiesIn scope.source)
    (hstart : range.start ≤ left.range.start) (hgap : left.range.finish ≤ right.range.start)
    (hfinish : right.range.finish ≤ range.finish) {first second : Node}
    (hfirst : left.Recovered scope first) (hsecond : right.Recovered scope second) :
    ∃ node, Recovered scope (.binary range operator left right) node := by
  obtain ⟨hleft, hcheck⟩ := hfirst.occupies.beside left.operator? operator .left
  obtain ⟨hright, hcheck'⟩ := hsecond.occupies.beside right.operator? operator .right
  have hle := hleft.nonempty
  have hle' := hright.nonempty
  let place := scope.source.infixPlace spelling left.range.finish right.range.start
  have hplace : left.range.finish ≤ place := scope.source.le_infixPlace _ _ _
  let symbol := (Token.ofOperator spelling).symbolAt place
  have happlies := form.applies symbol
  refine ⟨.branch (form.nodeKind symbol) range.span
    [first.beside left.operator? operator .left, second.beside right.operator? operator .right],
    fun stack => ?_, happlies.occupies hrange.nonempty, ?_⟩
  · refine (Reaches.of_yields (.rangeSpan hrange.rangeSpan)).bind ?_
    rw [hform]
    refine (Reaches.operatorBetween hlenient _ _ _).bind (.enter ?_ (Node.cover_branch ?_))
    · exact (hfirst.beside operator .left _).bind (hsecond.beside operator .right _)
    · refine List.forall_mem_cons.2 ⟨⟨_, hleft, hstart, by omega⟩, ?_⟩
      exact List.forall_mem_singleton.2 ⟨_, hright, by omega, hfinish⟩
  · have hends : Node.EndsBefore right.range.start (some left.range.span) :=
      Node.endsBefore_range hle hgap
    rw [happlies.check_iff (Token.length_ofOperator_pos (Operator.spelling_ne_of_binaryForm hform))
      hrange.nonempty (by omega),
      Node.checkChildren_occupies_iff hleft hstart (by omega) (Node.endsBefore_none _)
        (Node.endsBefore_none _),
      Node.checkChildren_occupies_iff hright (by omega) hfinish hends hends,
      hcheck, hcheck', hfirst.check, hsecond.check, placements_binary hform,
      List.forall_mem_cons, List.forall_mem_append]
    exact ⟨fun ⟨hfits, hall, hall', _⟩ => ⟨hfits, hall, hall'⟩,
      fun ⟨hfits, hall, hall'⟩ => ⟨hfits, hall, hall', rfl⟩⟩

/-- The marks of a conditional take up a single offset, and fit everywhere. -/
theorem recovered_conditional (hlenient : scope.strict = false) {test consequent alternate : Expr}
    (hrange : range.LiesIn scope.source) (hstart : range.start ≤ test.range.start)
    (hquestion : test.range.finish ≤ consequent.range.start)
    (hcolon : consequent.range.finish ≤ alternate.range.start)
    (hfinish : alternate.range.finish ≤ range.finish) {first second third : Node}
    (hfirst : test.Recovered scope first) (hsecond : consequent.Recovered scope second)
    (hthird : alternate.Recovered scope third) :
    ∃ node, Recovered scope (.conditional range test consequent alternate) node := by
  obtain ⟨htest, hcheck⟩ := hfirst.occupies.beside test.operator? .conditional .left
  obtain ⟨hconsequent, hcheck'⟩ := hsecond.occupies.beside consequent.operator? .assign .right
  obtain ⟨halternate, hcheck''⟩ := hthird.occupies.beside alternate.operator? .assign .right
  have hle := htest.nonempty
  have hle' := hconsequent.nonempty
  have hle'' := halternate.nonempty
  -- A token that is missing is put at the end of the operand in front, so the same bounds hold
  -- whether it is found or not.
  let question := (scope.source.find "?" test.range.finish consequent.range.start).getD
    test.range.finish
  let colon := (scope.source.find ":" consequent.range.finish alternate.range.start).getD
    consequent.range.finish
  have hbounds : test.range.finish ≤ question ∧
      (question < consequent.range.start ∨ question = test.range.finish) :=
    Source.getD_bounds fun _ => Source.find_bounds
  have hbounds' : consequent.range.finish ≤ colon ∧
      (colon < alternate.range.start ∨ colon = consequent.range.finish) :=
    Source.getD_bounds fun _ => Source.find_bounds
  have hfits : range.span.contains (Token.question.symbolAt question).span = true :=
    (Node.contains_symbolAt_iff (by decide) (by omega) hrange.nonempty).2
      (show question + 1 ≤ range.finish by omega)
  have hfits' : range.span.contains (Token.colon.symbolAt colon).span = true :=
    (Node.contains_symbolAt_iff (by decide) (by omega) hrange.nonempty).2
      (show colon + 1 ≤ range.finish by omega)
  refine ⟨.branch (.conditional (Token.question.symbolAt question) (Token.colon.symbolAt colon))
    range.span [first.beside test.operator? .conditional .left,
      second.beside consequent.operator? .assign .right,
      third.beside alternate.operator? .assign .right],
    fun stack => ?_, ⟨hrange.nonempty, rfl, rfl, NodeKind.noConfusion⟩, ?_⟩
  · refine (Reaches.of_yields (.rangeSpan hrange.rangeSpan)).bind ?_
    refine (Reaches.find hlenient _ _ _ _).bind ((Reaches.find hlenient _ _ _ _).bind ?_)
    refine .enter ?_ (Node.cover_branch ?_)
    · exact (hfirst.beside .conditional .left _).bind
        ((hsecond.beside .assign .right _).bind (hthird.beside .assign .right _))
    · refine List.forall_mem_cons.2 ⟨⟨_, htest, hstart, by omega⟩, List.forall_mem_cons.2 ⟨?_, ?_⟩⟩
      · exact ⟨_, hconsequent, by omega, by omega⟩
      · exact List.forall_mem_singleton.2 ⟨_, halternate, by omega, hfinish⟩
  · have hends : Node.EndsBefore consequent.range.start (some test.range.span) :=
      Node.endsBefore_range hle hquestion
    have hends' : Node.EndsBefore alternate.range.start (some consequent.range.span) :=
      Node.endsBefore_range hle' hcolon
    rw [Node.check_branch_iff rfl rfl,
      Node.checkChildren_occupies_iff htest hstart (by omega) (Node.endsBefore_none _)
        (Node.endsBefore_none _),
      Node.checkChildren_occupies_iff hconsequent (by omega) (by omega) hends hends,
      Node.checkChildren_occupies_iff halternate (by omega) hfinish hends' hends',
      hcheck, hcheck', hcheck'', hfirst.check, hsecond.check, hthird.check, Expr.placements,
      List.forall_mem_append, List.forall_mem_append]
    refine ⟨fun ⟨_, hall, hall', hall'', _⟩ => ⟨hall, hall', hall''⟩,
      fun ⟨hall, hall', hall''⟩ => ⟨?_, hall, hall', hall'', rfl⟩⟩
    exact List.forall_mem_cons.2 ⟨hfits, List.forall_mem_singleton.2 hfits'⟩

/-- A nested expression is recovered, whatever tokens are missing. -/
theorem recovered (hlenient : scope.strict = false) {expr : Expr} (h : expr.Nested scope.source) :
    ∃ node, expr.Recovered scope node := by
  induction h with
  | ident hrange => exact ⟨_, recovered_ident hrange⟩
  | unary hform hfront hrange _ hstart hfinish ih =>
    obtain ⟨child, hchild⟩ := ih
    exact recovered_unary hlenient hform hfront hrange hstart hfinish hchild
  | binary hform hrange _ _ hstart hgap hfinish ihleft ihright =>
    obtain ⟨first, hfirst⟩ := ihleft
    obtain ⟨second, hsecond⟩ := ihright
    exact recovered_binary hlenient hform hrange hstart hgap hfinish hfirst hsecond
  | conditional hrange _ _ _ hstart hquestion hcolon hfinish ihtest ihconsequent ihalternate =>
    obtain ⟨first, hfirst⟩ := ihtest
    obtain ⟨second, hsecond⟩ := ihconsequent
    obtain ⟨third, hthird⟩ := ihalternate
    exact recovered_conditional hlenient hrange hstart hquestion hcolon hfinish hfirst hsecond
      hthird

end Expr.Nested

/-! ## Programs -/

/-- A program that consists of an expression statement. -/
def Program.ofExpression (uri : String) (block statement : Range) (expr : Expr) : Program :=
  ⟨uri, ⟨block, .synthetic, [.expression statement expr]⟩, none⟩

/-- Below the root the check comes to what it comes to for the expression. -/
theorem Node.Occupies.check_root {node : Node} {range : Range} (h : node.Occupies range)
    {size : Nat}
    (hfinish : range.finish ≤ size) (flag : Bool) :
    (branch .root (Range.span ⟨0, size⟩) [{ node with ownsSemicolon := flag }]).check = .ok () ↔
      node.check = .ok () := by
  obtain ⟨kind, span, children, ownsSemicolon⟩ := node
  have hflagged : Occupies ⟨kind, span, children, flag⟩ range :=
    ⟨h.nonempty, h.span, h.isPlaceholder, h.kind⟩
  have hsame :
      check ⟨kind, span, children, flag⟩ = check ⟨kind, span, children, ownsSemicolon⟩ := by
    rw [check, check]
  rw [check_branch_iff rfl rfl, checkChildren_occupies_iff hflagged (Nat.zero_le _) hfinish
    (endsBefore_none _) (endsBefore_none _), hsame]
  exact ⟨fun hboth => hboth.2.1, fun hcheck => ⟨List.forall_mem_nil _, hcheck, rfl⟩⟩

theorem Expr.Nested.finish_le {source : Source} {expr : Expr} (h : expr.Nested source) :
    expr.range.finish ≤ source.size := by
  cases h with
  | ident hrange => exact hrange.finish
  | unary _ _ hrange => exact hrange.finish
  | binary _ hrange => exact hrange.finish
  | conditional hrange => exact hrange.finish

/-- The program of a nested expression is recovered. The check says of the tree what it says of the
node of the expression. -/
theorem Program.recovered_ofExpression (uri : String) {text : String} {mode : ScanMode}
    (block statement : Range) {expr : Expr} (h : expr.Nested (.ofString text mode)) :
    ∃ concrete : Concrete,
      (concrete.root.check = .ok () ↔
        ∀ placement ∈ expr.placements (.ofString text mode), placement.IsInside) ∧
      ∀ verify, ((ofExpression uri block statement expr).concretise text
        ⟨mode, false, verify⟩).result = concrete.verdict verify := by
  let program := ofExpression uri block statement expr
  let scope := Scope.of text none ⟨mode, false, true⟩
  obtain ⟨node, hnode⟩ : ∃ node, expr.Recovered scope node := Expr.Nested.recovered rfl h
  let stack := (Session.initial scope uri).stack
  let made := { node with
    ownsSemicolon := scope.source.endsWithSemicolon (max expr.range.finish (node.last + 1)) }
  have hstatement : Reaches scope stack (Stmt.expression statement expr).recover ()
      (stack.attach made) :=
    (hnode.places stack).bind (.of_yields (yields_statement scope stack node expr.range.finish))
  have hblock : Reaches scope stack program.body.recover () (stack.attach made) :=
    hstatement.bind (.of_yields (.pure ()))
  have hrecover : Reaches scope stack program.recover () (stack.attach made) :=
    (Reaches.of_yields (.note _)).bind (hblock.bind (.of_yields (.pure ())))
  obtain ⟨later, hrun, hstack, -⟩ := hrecover (.initial scope uri) rfl rfl
  refine ⟨later.concrete, ?_, fun verify => program.result_of_recover hrun⟩
  rw [Session.concrete, hstack]
  exact (hnode.occupies.check_root h.finish_le _).trans hnode.check

theorem Concrete.verdict_ok_iff (concrete : Concrete) :
    (∃ finished, concrete.verdict true = .ok finished) ↔ concrete.root.check = .ok () := by
  rw [verdict, if_pos rfl]
  cases concrete.root.check with
  | ok => exact ⟨fun _ => rfl, fun _ => ⟨concrete, rfl⟩⟩
  | error violation =>
    constructor
    · rintro ⟨_, h⟩
      cases h
    · intro h
      cases h

/-- Without its tokens a nested expression is recovered all the same. If the tree is checked
besides, the recovery comes to it just if every operator fits into its node where it is put, and
otherwise to the invariant that does not hold. -/
theorem fallbacks_are_valid_iff (uri text : String) (mode : ScanMode) (block statement : Range)
    {expr : Expr} (h : expr.Nested (.ofString text mode)) :
    let program := Program.ofExpression uri block statement expr
    let fit := ∀ placement ∈ expr.placements (.ofString text mode), placement.IsInside
    (∃ concrete, (program.concretise text ⟨mode, false, false⟩).result = .ok concrete) ∧
      ((∃ concrete, (program.concretise text ⟨mode, false, true⟩).result = .ok concrete) ↔ fit) ∧
      (¬fit → ∃ violation, (program.concretise text ⟨mode, false, true⟩).result =
        .error (.shape "ParseRoot" (.invalidTree violation) none)) := by
  intro program fit
  obtain ⟨concrete, hcheck, hresult⟩ := Program.recovered_ofExpression uri block statement h
  refine ⟨⟨concrete, hresult false⟩, ?_, fun hsticks => ?_⟩
  · rw [hresult true]
    exact concrete.verdict_ok_iff.trans hcheck
  · rw [hresult true]
    cases hverdict : concrete.verdict true with
    | error failure =>
      obtain ⟨violation, rfl⟩ := Concrete.of_verdict_error hverdict
      exact ⟨violation, rfl⟩
    | ok finished => exact absurd (hcheck.1 (concrete.verdict_ok_iff.1 ⟨_, hverdict⟩)) hsticks

/-- Two names with an operator between them. -/
def Expr.pair (operator : Operator) : Expr :=
  .binary ⟨0, 3⟩ operator (.ident ⟨⟨0, 1⟩, "a", false, false⟩) (.ident ⟨⟨2, 3⟩, "b", false, false⟩)

/-- In `a b` an operator is missing. A short one fits into the node all the same, and a long one
does not. -/
theorem missing_operator_fits_if_short :
    let result := fun operator => ((Program.ofExpression "file:///test.js" ⟨0, 3⟩ ⟨0, 3⟩
      (.pair operator)).concretise "a b" ⟨.skipTrivia, false, true⟩).result
    (∃ concrete, result .add = .ok concrete) ∧
      ∃ violation, result .assignShiftRightUnsigned =
        .error (.shape "ParseRoot" (.invalidTree violation) none) := by
  intro result
  have hnested : ∀ operator spelling form, operator.binaryForm = some (spelling, form) →
      (Expr.pair operator).Nested (.ofString "a b" .skipTrivia) := by
    intro operator spelling form hform
    have hrange : ∀ range ∈ [Range.mk 0 1, Range.mk 2 3, Range.mk 0 3],
        range.LiesIn (.ofString "a b" .skipTrivia) := by
      have hplaces : ∀ range ∈ [Range.mk 0 1, Range.mk 2 3, Range.mk 0 3],
          range.start < range.finish ∧ range.finish ≤ (Source.ofString "a b" .skipTrivia).size ∧
          (Source.ofString "a b" .skipTrivia).isBoundary range.start = true ∧
          (Source.ofString "a b" .skipTrivia).isBoundary range.finish = true := by decide +kernel
      intro range hmem
      obtain ⟨hnonempty, hfinish, hstart, hend⟩ := hplaces range hmem
      exact ⟨hnonempty, hfinish, hstart, hend⟩
    exact .binary hform (hrange _ (by decide)) (.ident (hrange _ (by decide)))
      (.ident (hrange _ (by decide))) (by decide) (by decide) (by decide)
  refine ⟨?_, ?_⟩
  · obtain ⟨-, hok, -⟩ := fallbacks_are_valid_iff "file:///test.js" "a b" .skipTrivia ⟨0, 3⟩ ⟨0, 3⟩
      (hnested .add _ _ rfl)
    exact hok.2 (by decide +kernel)
  · obtain ⟨-, -, hfailure⟩ := fallbacks_are_valid_iff "file:///test.js" "a b" .skipTrivia ⟨0, 3⟩
      ⟨0, 3⟩ (hnested .assignShiftRightUnsigned _ _ rfl)
    exact hfailure (by decide +kernel)

end Concretion
