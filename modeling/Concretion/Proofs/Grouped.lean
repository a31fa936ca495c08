import Concretion.Proofs.Grammar
import Concretion.Proofs.Growth.Operators
import Concretion.Recovery.Program

/-!
# Groups

The abstract tree of an operator expression has no parentheses. A group is put around an operand
wherever precedence and associativity of the operators ask for parentheses, and nowhere else.

- `Node.lexemes`: a concrete tree in writing, with parentheses exactly at its groups.
- `Node.ungroupings`: the trees with one group less.
- `Expr.Denotes`: the operator expressions over identifiers, as terms.
- `groups_are_exact`: the tree recovered from such an expression is read as that expression, and
  with any of its groups taken away it is not.
-/

namespace Concretion

open Recover

/-! ## Trees in writing -/

/-- The parts in order, with the first gap in front of the first part, and so on. -/
def interleave : List (List Lexeme) → List (List Lexeme) → List Lexeme
  | gap :: gaps, part :: parts => gap ++ (part ++ interleave gaps parts)
  | gaps, [] => gaps.flatten
  | [], parts => parts.flatten

/-- What stands in front of the children of a node, between them and behind them. -/
def NodeKind.gaps : NodeKind → List (List Lexeme)
  | identifier name => [[.name name.value]]
  | preUnary symbol | construct symbol | yield symbol => [[.mark symbol.value]]
  | postUnary symbol | assignment symbol | binaryArithmetic symbol | binaryBoolean symbol
  | comma symbol => [[], [.mark symbol.value]]
  | conditional question colon => [[], [.mark question.value], [.mark colon.value]]
  | group => [[.mark "("], [.mark ")"]]
  | _ => []

namespace Node

mutual

/-- A tree in writing. -/
def lexemes : Node → List Lexeme
  | ⟨kind, _, children, _⟩ => interleave kind.gaps (lexemesEach children)

/-- Several trees in writing. -/
def lexemesEach : List Node → List (List Lexeme)
  | [] => []
  | node :: rest => node.lexemes :: lexemesEach rest

end

mutual

/-- The trees in which one group has made way for the node in it. -/
def ungroupings : Node → List Node
  | ⟨kind, span, children, flag⟩ =>
    let inside := (ungroupingsEach children).map fun changed => ⟨kind, span, changed, flag⟩
    match kind, children with
    | .group, [child] => child :: inside
    | _, _ => inside

/-- The lists of trees in which one group has made way for the node in it. -/
def ungroupingsEach : List Node → List (List Node)
  | [] => []
  | node :: rest =>
    node.ungroupings.map (· :: rest) ++ (ungroupingsEach rest).map (node :: ·)

end

end Node

/-! ## Taking groups away -/

theorem count_interleave (lexeme : Lexeme) (gaps parts : List (List Lexeme)) :
    (interleave gaps parts).count lexeme =
      gaps.flatten.count lexeme + parts.flatten.count lexeme := by
  fun_induction interleave gaps parts with
  | case1 gap gaps part parts ih =>
    simp only [List.flatten_cons, List.count_append, ih]
    omega
  | case2 gaps => simp
  | case3 parts => simp

namespace Node

theorem lexemes_eq (node : Node) :
    node.lexemes = interleave node.kind.gaps (lexemesEach node.children) := by
  obtain ⟨kind, span, children, flag⟩ := node
  rw [lexemes]

mutual

/-- Each of the trees has one opening parenthesis less. -/
theorem count_of_mem_ungroupings {node other : Node} (h : other ∈ node.ungroupings) :
    other.lexemes.count (.mark "(") + 1 = node.lexemes.count (.mark "(") := by
  obtain ⟨kind, span, children, flag⟩ := node
  have hinside : ∀ other ∈ (ungroupingsEach children).map
      fun changed => (⟨kind, span, changed, flag⟩ : Node),
      other.lexemes.count (.mark "(") + 1 =
        (lexemes ⟨kind, span, children, flag⟩).count (.mark "(") := by
    intro other hother
    obtain ⟨changed, hchanged, rfl⟩ := List.mem_map.1 hother
    have hcount := count_of_mem_ungroupingsEach hchanged
    rw [lexemes, lexemes, count_interleave, count_interleave]
    omega
  unfold ungroupings at h
  dsimp only at h
  split at h
  · rcases List.mem_cons.1 h with rfl | h
    · rw [lexemes, count_interleave, lexemesEach, lexemesEach]
      simp [NodeKind.gaps]
      omega
    · exact hinside other h
  · exact hinside other h

theorem count_of_mem_ungroupingsEach {nodes others : List Node}
    (h : others ∈ ungroupingsEach nodes) :
    (lexemesEach others).flatten.count (.mark "(") + 1 =
      (lexemesEach nodes).flatten.count (.mark "(") := by
  cases nodes with
  | nil => cases h
  | cons node rest =>
    rw [ungroupingsEach] at h
    rcases List.mem_append.1 h with h | h
    · obtain ⟨other, hother, rfl⟩ := List.mem_map.1 h
      have hcount := count_of_mem_ungroupings hother
      simp only [lexemesEach, List.flatten_cons, List.count_append]
      omega
    · obtain ⟨changed, hchanged, rfl⟩ := List.mem_map.1 h
      have hcount := count_of_mem_ungroupingsEach hchanged
      simp only [lexemesEach, List.flatten_cons, List.count_append]
      omega

end

end Node

/-! ## Operator expressions -/

/-- The expression is made up of identifiers and supported operators, and is the term. Only to an
identifier anything is assigned. -/
inductive Expr.Denotes : Expr → Term → Prop where
  | ident (name : Ident) : Denotes (.ident name) (.name name.name)
  | before {range : Range} {operator : Operator} {operand : Expr} {term : Term}
      (hoperator : operator.isPrefix = true) (hoperand : operand.Denotes term) :
      Denotes (.unary range operator operand) (.before operator term)
  | after {range : Range} {operator : Operator} {operand : Expr} {term : Term}
      (hoperator : operator.isPostfix = true) (hoperand : operand.Denotes term) :
      Denotes (.unary range operator operand) (.after operator term)
  | binary {range : Range} {operator : Operator} {left right : Expr} {first second : Term}
      (hoperator : operator.isInfix = true) (hleft : left.Denotes first)
      (hright : right.Denotes second)
      (htarget : operator.isAssignment = true → ∃ name, left = .ident name) :
      Denotes (.binary range operator left right) (.binary operator first second)
  | conditional {range : Range} {test consequent alternate : Expr} {first second third : Term}
      (htest : test.Denotes first) (hconsequent : consequent.Denotes second)
      (halternate : alternate.Denotes third) :
      Denotes (.conditional range test consequent alternate) (.conditional first second third)

namespace Expr.Denotes

variable {expr : Expr} {term : Term}

theorem operator?_eq (h : expr.Denotes term) : expr.operator? = term.operator? := by
  cases h <;> rfl

theorem valid (h : expr.Denotes term) : term.Valid := by
  induction h with
  | ident name => trivial
  | before hoperator _ ih => exact ⟨hoperator, ih⟩
  | after hoperator _ ih => exact ⟨hoperator, ih⟩
  | binary hoperator hleft _ htarget ihleft ihright =>
    refine ⟨hoperator, ihleft, ihright, fun hassign => ?_⟩
    obtain ⟨name, rfl⟩ := htarget hassign
    cases hleft
    rfl
  | conditional _ _ _ ihtest ihconsequent ihalternate => exact ⟨ihtest, ihconsequent, ihalternate⟩

end Expr.Denotes

/-! ## What is recovered -/

/-- The node is the term in writing. It is no call that a construction would take apart. -/
structure Node.Writes (node : Node) (term : Term) : Prop where
  lexemes : node.lexemes = term.lexemes
  kind : node.kind ≠ .invoke

theorem Term.precedence_ne_zero {term : Term} {op : Operator} (hvalid : term.Valid)
    (h : term.operator? = some op) : op.precedence ≠ 0 := by
  cases term with
  | name text => cases h
  | before operator operand =>
    cases h
    have := Operator.precedence_of_isPrefix hvalid.1
    omega
  | after operator operand =>
    cases h
    have := Operator.precedence_of_isPostfix hvalid.1
    omega
  | binary operator left right =>
    cases h
    have := Operator.precedence_of_isInfix hvalid.1
    omega
  | conditional test consequent alternate =>
    cases h
    decide

namespace Operator

/-- How strong an operand on the given side has to be. -/
def levelAt (op : Operator) : Side → Nat
  | .left => op.leftLevel
  | .right => op.rightLevel

theorem any_needsParens {term : Term} (hvalid : term.Valid) (outer : Operator) (side : Side) :
    term.operator?.any (outer.needsParens · side) =
      decide (term.strength < outer.levelAt side) := by
  cases hop : term.operator? with
  | none =>
    have hlevel : outer.levelAt side ≤ utmost := by
      cases side <;> cases outer <;> decide
    have hstrength : term.strength = utmost := by
      rw [Term.strength, hop]
      rfl
    rw [hstrength, decide_eq_false (Nat.not_lt.2 hlevel)]
    rfl
  | some op =>
    have hstrength : term.strength = op.precedence := by
      rw [Term.strength, hop]
      rfl
    rw [hstrength]
    cases side with
    | left => exact needsParens_left (Term.precedence_ne_zero hvalid hop)
    | right => exact needsParens_right (Term.precedence_ne_zero hvalid hop)

end Operator

namespace Node

variable {node : Node} {term : Term}

/-- An operand is in a group just where it is written in parentheses. -/
theorem Writes.beside (h : node.Writes term) (hvalid : term.Valid) (outer : Operator)
    (side : Operator.Side) :
    (node.beside term.operator? outer side).lexemes =
        inParens (term.strength < outer.levelAt side) term.lexemes ∧
      (node.beside term.operator? outer side).kind ≠ .invoke := by
  rw [Node.beside, Operator.any_needsParens hvalid]
  by_cases hgrouped : term.strength < outer.levelAt side
  · rw [if_pos (decide_eq_true hgrouped), inParens, if_pos (decide_eq_true hgrouped), grouped,
      branch, Node.lexemes, lexemesEach, lexemesEach, h.lexemes]
    exact ⟨rfl, NodeKind.noConfusion⟩
  · rw [if_neg (by simpa using hgrouped), inParens, if_neg (by simpa using hgrouped)]
    exact ⟨h.lexemes, h.kind⟩

variable {made : Node} {operator : Operator}

theorem IsUnary.lexemes_of_isPrefix {operand : Node} (h : made.IsUnary operator operand)
    (hoperator : operator.isPrefix = true) (hoperand : operand.kind ≠ .invoke) :
    made.lexemes = .mark operator.unaryText :: operand.lexemes ∧ made.kind ≠ .invoke := by
  obtain ⟨spelling, form, symbol, hform, rfl, hkind, hchildren | ⟨-, hinvoke, -⟩⟩ := h
  · rw [lexemes_eq, hkind, hchildren, Operator.unaryText, hform]
    rw [Operator.isPrefix, hform] at hoperator
    cases form with
    | before => exact ⟨congrArg _ (List.append_nil _), NodeKind.noConfusion⟩
    | construct => exact ⟨congrArg _ (List.append_nil _), NodeKind.noConfusion⟩
    | yield => exact ⟨congrArg _ (List.append_nil _), NodeKind.noConfusion⟩
    | after => cases hoperator
    | spread => cases hoperator
  · exact absurd hinvoke hoperand

theorem IsUnary.lexemes_of_isPostfix {operand : Node} (h : made.IsUnary operator operand)
    (hoperator : operator.isPostfix = true) (hoperand : operand.kind ≠ .invoke) :
    made.lexemes = operand.lexemes ++ [.mark operator.unaryText] ∧ made.kind ≠ .invoke := by
  obtain ⟨spelling, form, symbol, hform, rfl, hkind, hchildren | ⟨-, hinvoke, -⟩⟩ := h
  · rw [lexemes_eq, hkind, hchildren, Operator.unaryText, hform]
    rw [Operator.isPostfix, hform] at hoperator
    cases form with
    | after => exact ⟨rfl, NodeKind.noConfusion⟩
    | before => cases hoperator
    | construct => cases hoperator
    | yield => cases hoperator
    | spread => cases hoperator
  · exact absurd hinvoke hoperand

theorem IsBinary.lexemes {left right : Node} (h : made.IsBinary operator left right) :
    made.lexemes = left.lexemes ++ .mark operator.binaryText :: right.lexemes ∧
      made.kind ≠ .invoke := by
  obtain ⟨spelling, form, symbol, hform, rfl, hkind, hchildren⟩ := h
  have hgaps : made.kind.gaps = [[], [.mark symbol.value]] ∧ made.kind ≠ .invoke := by
    rw [hkind]
    cases form <;> exact ⟨rfl, NodeKind.noConfusion⟩
  refine ⟨?_, hgaps.2⟩
  rw [lexemes_eq, hgaps.1, hchildren, Operator.binaryText, hform]
  simp [lexemesEach, interleave]

theorem IsConditional.lexemes {test consequent alternate : Node}
    (h : made.IsConditional test consequent alternate) :
    made.lexemes = test.lexemes ++ .mark "?" ::
        (consequent.lexemes ++ .mark ":" :: alternate.lexemes) ∧ made.kind ≠ .invoke := by
  obtain ⟨question, colon, hquestion, hcolon, hkind, hchildren⟩ := h
  rw [lexemes_eq, hkind, hchildren]
  refine ⟨?_, NodeKind.noConfusion⟩
  simp [lexemesEach, interleave, NodeKind.gaps, hquestion, hcolon]

end Node

/-- An operator expression over identifiers is recovered as one node, which writes it. -/
theorem Expr.Denotes.appends {expr : Expr} {term : Term} (h : expr.Denotes term) (scope : Scope) :
    Appends scope expr.recover (·.Writes term) := by
  induction h with
  | ident name =>
    refine (Appends.ident name).mono ?_
    rintro _ ⟨span, -, rfl⟩
    exact ⟨rfl, NodeKind.noConfusion⟩
  | @before range operator operand term hoperator hoperand ih =>
    refine (Appends.unary ih).mono ?_
    rintro made ⟨node, hnode, hmade⟩
    simp only [Expr.fragmentOf, hoperand.operator?_eq] at hmade
    obtain ⟨hlexemes, hkind⟩ := hnode.beside hoperand.valid operator .right
    obtain ⟨hwritten, hmadeKind⟩ := hmade.lexemes_of_isPrefix hoperator hkind
    exact ⟨hwritten.trans (congrArg _ hlexemes), hmadeKind⟩
  | @after range operator operand term hoperator hoperand ih =>
    refine (Appends.unary ih).mono ?_
    rintro made ⟨node, hnode, hmade⟩
    simp only [Expr.fragmentOf, hoperand.operator?_eq] at hmade
    obtain ⟨hlexemes, hkind⟩ := hnode.beside hoperand.valid operator .right
    obtain ⟨hwritten, hmadeKind⟩ := hmade.lexemes_of_isPostfix hoperator hkind
    exact ⟨hwritten.trans (congrArg (· ++ _) hlexemes), hmadeKind⟩
  | @binary range operator left right first second _ hleft hright _ ihleft ihright =>
    refine (Appends.binary ihleft ihright).mono ?_
    rintro made ⟨node, node', hnode, hnode', hmade⟩
    simp only [Expr.fragmentOf, hleft.operator?_eq, hright.operator?_eq] at hmade
    have hlexemes := (hnode.beside hleft.valid operator .left).1
    have hlexemes' := (hnode'.beside hright.valid operator .right).1
    obtain ⟨hwritten, hmadeKind⟩ := hmade.lexemes
    refine ⟨hwritten.trans ?_, hmadeKind⟩
    exact congrArg₂ (· ++ .mark operator.binaryText :: ·) hlexemes hlexemes'
  | @conditional range test consequent alternate first second third htest hconsequent halternate
      ihtest ihconsequent ihalternate =>
    refine (Appends.conditional ihtest ihconsequent ihalternate).mono ?_
    rintro made ⟨node, node', node'', hnode, hnode', hnode'', hmade⟩
    simp only [Expr.fragmentOf, htest.operator?_eq, hconsequent.operator?_eq,
      halternate.operator?_eq] at hmade
    have hlexemes := (hnode.beside htest.valid .conditional .left).1
    have hlexemes' := (hnode'.beside hconsequent.valid .assign .right).1
    have hlexemes'' := (hnode''.beside halternate.valid .assign .right).1
    obtain ⟨hwritten, hmadeKind⟩ := hmade.lexemes
    refine ⟨hwritten.trans ?_, hmadeKind⟩
    rw [hlexemes, hlexemes', hlexemes'']
    rfl

/-- A node that writes a term is read as the term, and with a group less it is not: what is left are
fewer parentheses than the term takes. -/
theorem Node.Writes.exact {node : Node} {term : Term} (h : node.Writes term)
    (hvalid : term.Valid) : parse node.lexemes = some term ∧
      ∀ other ∈ node.ungroupings, parse other.lexemes ≠ some term := by
  refine ⟨by rw [h.lexemes, parse_lexemes hvalid], fun other hother hparse => ?_⟩
  have hcount := count_of_mem_ungroupings hother
  have hleast := Term.groups_le_of_parse hparse
  rw [h.lexemes, term.count_lexemes] at hcount
  omega

/-- Wherever an operator expression over identifiers is recovered, a single node is attached. With
parentheses just at its groups, it is read as that expression by precedence and associativity, and
with any of these groups taken away it is not. -/
theorem groups_are_exact {expr : Expr} {term : Term} (h : expr.Denotes term) (scope : Scope)
    (session : Session) (hskips : session.skipsName = false) :
    match expr.recover.outcome scope session with
    | (.ok (), later) => ∃ node, later.stack = session.stack.attach node ∧
        parse node.lexemes = some term ∧ ∀ other ∈ node.ungroupings, parse other.lexemes ≠ some term
    | (.error _, _) => True := by
  split
  · next later hrun =>
    obtain ⟨hgrown, node, hafter, hwrites⟩ :=
      h.appends scope session.stack.children session rfl hskips () later hrun
    refine ⟨node, ?_, hwrites.exact h.valid⟩
    rw [hgrown.stack, hafter, Stack.attach_eq_setChildren]
  · trivial

/-- The product of a sum, as in `(a + b) * c`. -/
def Expr.productOfSum : Expr :=
  .binary ⟨0, 11⟩ .multiply
    (.binary ⟨1, 6⟩ .add (.ident ⟨⟨1, 2⟩, "a", false, false⟩) (.ident ⟨⟨5, 6⟩, "b", false, false⟩))
    (.ident ⟨⟨10, 11⟩, "c", false, false⟩)

/-- There is one group in the product of a sum. Without it, the product comes first. -/
theorem sum_is_grouped_in_product :
    let expr := Expr.productOfSum
    let term := Term.binary .multiply (.binary .add (.name "a") (.name "b")) (.name "c")
    let scope := Scope.of "(a + b) * c" none Settings.unforgiving
    let session := Session.start scope.source
    expr.Denotes term ∧ session.skipsName = false ∧
      (expr.recover.outcome scope session).1.isOk = true ∧
      ((expr.recover.outcome scope session).2.stack.children.map fun node =>
          (node.lexemes, node.ungroupings.map fun other => parse other.lexemes)) =
        [([.mark "(", .name "a", .mark "+", .name "b", .mark ")", .mark "*", .name "c"],
          [some (.binary .add (.name "a") (.binary .multiply (.name "b") (.name "c")))])] ∧
      match expr.recover.outcome scope session with
      | (.ok (), later) => ∃ node, later.stack = session.stack.attach node ∧
          parse node.lexemes = some term ∧
            ∀ other ∈ node.ungroupings, parse other.lexemes ≠ some term
      | (.error _, _) => True := by
  intro expr term scope session
  have hdenotes : expr.Denotes term :=
    .binary rfl (.binary rfl (.ident _) (.ident _) nofun) (.ident _) nofun
  exact ⟨hdenotes, rfl, by decide +kernel, by decide +kernel,
    groups_are_exact hdenotes scope session rfl⟩

end Concretion
