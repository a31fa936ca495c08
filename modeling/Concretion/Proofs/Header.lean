import Concretion.Recovery.Tree
import Mathlib.Data.List.DropRight

/-!
# Statements without braces

A loop at the end of a block without braces takes the declarations right in front of it into its
header, as far as they stand there in the text. What the rule for such blocks does with fragments is
said here in terms of the statements themselves.

- `closingLoop?`: the loop at the end of statements.
- `ForLoop.front`, `ForLoop.header`: the statements in front of that loop, taken apart.
- `syntheticBlock_of_loop`, `syntheticBlock_of_none`: the recovery of a block without braces.
-/

namespace Concretion

open Recover

/-- What a block sees of a statement. -/
def Stmt.fragment (statement : Stmt) : StatementFragment :=
  match statement with
  | .binding definition => ⟨definition.range, true, none, definition.recover⟩
  | .forLoop loop => ⟨loop.range, false, some loop.fragment, Rule.forLoop loop.fragment none⟩
  | statement => ⟨statement.range, false, none, statement.recover⟩

/-- The loop that a statement is. -/
def Stmt.loop? : Stmt → Option ForLoop
  | .forLoop loop => some loop
  | _ => none

/-- The loop at the end of statements. -/
def closingLoop? (statements : List Stmt) : Option ForLoop := statements.getLast?.bind Stmt.loop?

namespace ForLoop

variable (loop : ForLoop)

/-- Does the statement declare a variable in the header of the loop? -/
def claims : Stmt → Bool
  | .binding definition => loop.range.start < definition.range.start
      && definition.range.finish ≤ loop.body.range.start
  | _ => false

/-- The statements that stay in front of the loop at the end. -/
def front (statements : List Stmt) : List Stmt := statements.dropLast.rdropWhile loop.claims

/-- The declarations that go into the header of the loop at the end. -/
def header (statements : List Stmt) : List Stmt := statements.dropLast.rtakeWhile loop.claims

end ForLoop

theorem statementFragments_eq_map (statements : List Stmt) :
    statementFragments statements = statements.map Stmt.fragment := by
  induction statements with
  | nil => rfl
  | cons statement rest ih =>
    cases statement <;> exact congrArg _ ih

@[simp] theorem Stmt.fragment_build (statement : Stmt) :
    statement.fragment.build = statement.recover := by
  cases statement <;> rfl

theorem Stmt.fragment_loop? (statement : Stmt) :
    statement.fragment.loop? = statement.loop?.map ForLoop.fragment := by
  cases statement <;> rfl

theorem ForLoop.inHeader_fragment (loop : ForLoop) (statement : Stmt) :
    Rule.inHeader loop.fragment statement.fragment = loop.claims statement := by
  have hrange : loop.fragment.range = loop.range ∧ loop.fragment.body.range = loop.body.range := by
    cases loop
    exact ⟨rfl, rfl⟩
  cases statement <;> simp [Rule.inHeader, ForLoop.claims, Stmt.fragment, hrange]

/-- Front, header and the loop itself are all there is. -/
theorem ForLoop.front_append_header {loop : ForLoop} {statements : List Stmt}
    (h : closingLoop? statements = some loop) :
    statements = loop.front statements ++ (loop.header statements ++ [.forLoop loop]) := by
  obtain ⟨last, hlast, hloop⟩ := Option.bind_eq_some_iff.1 h
  have hend : last = .forLoop loop := by
    cases last <;> cases hloop
    rfl
  have hrest : loop.front statements ++ loop.header statements = statements.dropLast :=
    List.rdropWhile_append_rtakeWhile
  rw [← List.append_assoc, hrest, ← hend, List.dropLast_append_getLast? last hlast]

theorem bind_loop?_fragments (statements : List Stmt) :
    (statementFragments statements).getLast?.bind (·.loop?) =
      (closingLoop? statements).map ForLoop.fragment := by
  rw [statementFragments_eq_map, List.getLast?_map, closingLoop?]
  cases statements.getLast? with
  | none => rfl
  | some last => exact last.fragment_loop?

namespace Rule

theorem forM_build (statements : List Stmt) :
    (statements.map Stmt.fragment).forM (·.build) = statements.forM Stmt.recover := by
  rw [List.forM_eq_forM, List.forM_map]
  simp only [Stmt.fragment_build]
  rfl

theorem syntheticBlock_of_none {statements : List Stmt} (h : closingLoop? statements = none) :
    syntheticBlock (statementFragments statements) = statements.forM Stmt.recover := by
  rw [syntheticBlock, bind_loop?_fragments, h, statementFragments_eq_map]
  exact forM_build statements

/-- What stays in front of the loop is recovered first. The loop comes last, with the declarations
of its header. -/
theorem syntheticBlock_of_loop {statements : List Stmt} {loop : ForLoop}
    (h : closingLoop? statements = some loop) :
    syntheticBlock (statementFragments statements) = (do
      (loop.front statements).forM Stmt.recover
      if (loop.header statements).isEmpty then forLoop loop.fragment none
      else declaringLoop loop.fragment ((loop.header statements).map Stmt.fragment)) := by
  have hclaims : (inHeader loop.fragment) ∘ Stmt.fragment = loop.claims :=
    funext loop.inHeader_fragment
  have hrest : loop.front statements ++ loop.header statements = statements.dropLast :=
    List.rdropWhile_append_rtakeWhile
  have hmoved : (((statementFragments statements).dropLast.reverse.takeWhile
      (inHeader loop.fragment)).length) = (loop.header statements).length := by
    rw [statementFragments_eq_map, ← List.map_dropLast, ← List.map_reverse, List.takeWhile_map,
      hclaims, List.length_map, ForLoop.header, List.rtakeWhile, List.length_reverse]
  -- The fragments keep the order of the statements, so both are cut at the same place.
  have hcount : ((statementFragments statements).dropLast.length -
      (loop.header statements).length) = (loop.front statements).length := by
    rw [statementFragments_eq_map, ← List.map_dropLast, List.length_map, ← hrest,
      List.length_append, Nat.add_sub_cancel]
  have hdrop : (statementFragments statements).dropLast =
      (loop.front statements).map Stmt.fragment ++ (loop.header statements).map Stmt.fragment := by
    rw [statementFragments_eq_map, ← List.map_dropLast, ← hrest, List.map_append]
  have hlength : (loop.front statements).length =
      ((loop.front statements).map Stmt.fragment).length := (List.length_map _).symm
  rw [syntheticBlock, bind_loop?_fragments, h]
  dsimp only [Option.map_some]
  rw [hmoved, hcount, hdrop, hlength, List.take_left, List.drop_left, forM_build,
    List.isEmpty_map]

end Rule

end Concretion
