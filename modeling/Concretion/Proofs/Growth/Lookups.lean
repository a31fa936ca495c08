import Concretion.Proofs.Declared
import Concretion.Proofs.Growth
import Concretion.Recovery.Tree

/-!
# What rules look up

Before a rule attaches anything, it looks for the places of tokens and prepares nodes. None of this
touches the children of the innermost open node.

- `Rule.looks_quoteShown`: the quotes of a string.
- `Rule.looks_argumentList`, `Rule.looks_parameterList`: nodes that are opened later.
- `Rule.looks_functionStart`, `Rule.looks_ownKeyword`, `Rule.looks_jumpLabel` and so on: places of
  tokens.
-/

namespace Concretion

open Recover

/-- A rule can tell from the fragment whether a function declares its name. -/
theorem FunctionDef.declares_fragment (definition : FunctionDef) :
    (definition.fragment.isDeclared && !definition.fragment.isAnonymous &&
      !definition.fragment.isMethod) = definition.declares := by
  cases definition
  rfl

namespace Rule

variable {scope : Scope} {range : Range}

/-! ## Literals -/

theorem looks_quoteShown (span : Span) (found : Option UInt8) :
    Looks scope (quoteShown span found) (· ∈ ["'", "\""]) := by
  unfold quoteShown
  split
  · exact .pure List.mem_cons_self
  · split
    · exact (Looks.note _).bind fun _ _ => .pure (List.mem_cons_of_mem _ List.mem_cons_self)
    · exact .pure (List.mem_cons_of_mem _ List.mem_cons_self)

/-! ## Calls -/

/-- There are no arguments if there is no list for them. -/
theorem looks_argumentParens (opening : Nat) :
    Looks scope (argumentParens range opening) fun list =>
      ∃ lparen rparen span, list = some (.leaf (.arguments lparen rparen) span) := by
  refine (Looks.symbolAt _ _).bind fun lparen _ => ?_
  refine (Looks.findEndingAt _ _ _ _).bind fun rparen _ => ?_
  exact (Looks.mergeSpans _ _).bind fun span _ => .pure ⟨lparen, rparen, span, rfl⟩

/-- There are no arguments if there is no list for them. -/
theorem looks_argumentList {calleeEnd : Nat} {arguments : List Fragment} :
    Looks scope (argumentList range calleeEnd arguments) fun list =>
      (list = none → arguments = []) ∧
        ∀ node ∈ list, ∃ lparen rparen span, node = .leaf (.arguments lparen rparen) span := by
  have hlist : ∀ opening : Nat, Looks scope (argumentParens range opening) fun list =>
      (list = none → arguments = []) ∧
        ∀ node ∈ list, ∃ lparen rparen span, node = .leaf (.arguments lparen rparen) span := by
    intro opening
    refine (looks_argumentParens opening).mono ?_
    rintro _ ⟨lparen, rparen, span, rfl⟩
    refine ⟨fun h => (by cases h), ?_⟩
    rintro node ⟨⟩
    exact ⟨lparen, rparen, span, rfl⟩
  cases arguments with
  | cons first rest =>
    rw [argumentList]
    refine Looks.source.bind fun text _ => ?_
    exact (Looks.settle _ _).bind fun opening _ => hlist opening
  | nil =>
    rw [argumentList]
    refine Looks.source.bind fun text _ => ?_
    cases text.find "(" calleeEnd range.finish with
    | none => exact .pure ⟨fun _ => rfl, fun _ h => (by cases h)⟩
    | some opening => exact hlist opening

/-! ## Functions -/

theorem looks_arrowParens (function : FunctionFragment) :
    Looks scope (arrowParens function) fun _ => True := by
  refine Looks.source.bind fun text _ => (Looks.settle _ _).bind fun arrow _ => ?_
  split
  · exact .pure trivial
  · exact (Looks.settle _ _).bind fun rparen _ => .pure trivial

theorem looks_functionParens (function : FunctionFragment) (nameEnd : Nat) :
    Looks scope (functionParens function nameEnd) fun _ => True :=
  Looks.source.bind fun _ _ => (Looks.settle _ _).bind fun _ _ =>
    (Looks.settle _ _).bind fun _ _ => .pure trivial

theorem looks_parameterNode (function : FunctionFragment) (parens : Option (Nat × Nat)) :
    Looks scope (parameterNode function parens) fun node =>
      ∃ lparen rparen span, node = .leaf (.parameters lparen rparen) span := by
  cases parens with
  | some places =>
    refine (Looks.symbolAt _ _).bind fun lparen _ => (Looks.symbolAt _ _).bind fun rparen _ => ?_
    exact (Looks.mergeSpans _ _).bind fun span _ => .pure ⟨_, _, _, rfl⟩
  | none =>
    unfold parameterNode
    dsimp only
    split
    · exact (Looks.rangeSpan _ _).bind fun span _ => .pure ⟨_, _, _, rfl⟩
    · exact .pure ⟨_, _, _, rfl⟩

theorem looks_parameterList (function : FunctionFragment) (nameEnd : Nat) :
    Looks scope (parameterList function nameEnd) fun node =>
      ∃ lparen rparen span, node = .leaf (.parameters lparen rparen) span := by
  unfold parameterList
  dsimp only
  split
  · exact (looks_arrowParens function).bind fun parens _ => looks_parameterNode function parens
  · refine (looks_functionParens function nameEnd).bind fun parens _ => ?_
    exact looks_parameterNode function (some parens)

theorem looks_functionStart (function : FunctionFragment) (member : Option MemberFragment) :
    Looks scope (functionStart function member) fun _ => True := by
  cases member with
  | some member => exact .pure trivial
  | none =>
    unfold functionStart
    dsimp only
    split
    · exact .pure trivial
    · split
      · exact Looks.source.bind fun text _ => Looks.gapStart.bind fun gap _ => .settle _ _
      · exact .pure trivial

theorem looks_accessorRange (member : MemberFragment) (function : FunctionFragment)
    (accessor : Accessor) (ownsKey : Bool) :
    Looks scope (accessorRange member function accessor ownsKey) fun _ => True := by
  unfold accessorRange
  dsimp only
  split
  · exact .pure trivial
  · refine Looks.source.bind fun text _ => Looks.gapStart.bind fun gap _ => ?_
    exact (Looks.settle _ _).bind fun start _ => .pure trivial

/-! ## Statements -/

theorem looks_ownKeyword (keyword : String) (windowStart nameStart : Nat) :
    Looks scope (ownKeyword keyword windowStart nameStart) fun _ => True := by
  refine Looks.source.bind fun text _ => ?_
  dsimp only
  split
  · exact .pure trivial
  · exact .pure trivial

theorem looks_expectVar (node : Node) :
    Looks scope (expectVar node) fun _ => node.kind.isVar = true := by
  unfold expectVar
  split
  · exact .throw
  · next hvar => exact .pure (by simpa using hvar)

/-- The label of a jump, if it has one. -/
theorem looks_jumpLabel (keyword : String) (label : Option String) :
    Looks scope (label.mapM (jumpLabel range keyword)) fun _ => True := by
  cases label with
  | none => exact .pure trivial
  | some text =>
    have hsymbol : Looks scope (jumpLabel range keyword text) fun _ => True :=
      Looks.source.bind fun _ _ => (Looks.settle _ _).bind fun offset _ =>
        (Looks.symbolAt _ _).mono fun _ _ => trivial
    exact hsymbol.bind fun _ _ => .pure trivial

end Rule

end Concretion
