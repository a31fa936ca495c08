import Concretion.Proofs.Runs

/-!
# The stack while a tree is recovered

Whatever is recovered, and however it ends, the nodes that were open before are open afterwards, and
only the innermost one has got more children. So no run can lose track of what is open or deferred.
-/

namespace Concretion

open Recover

/-- A run fails for no other reason than the trees, or a token that is missing. -/
theorem Program.cursor_build (program : Program) (verify : Bool) (scope : Scope) {failure : Failure}
    (h : ((program.build verify).outcome scope (.initial scope program.uri)).1 =
      .error failure) : failure.concernsCursor = false := by
  have hkept := (program.sound_recover False).kept scope (.initial scope program.uri)
    fun hfalse => hfalse.elim
  rw [build_eq] at h
  rcases hrun : program.recover.outcome scope (.initial scope program.uri) with ⟨other | _, later⟩
  · rw [outcome_bind_error hrun] at h
    rw [hrun] at hkept
    cases h
    exact hkept.cursor failure rfl
  · obtain ⟨hopened, hshelf⟩ := program.done_of_recover hrun
    obtain ⟨last, -, -, -, hconclude⟩ := program.outcome_conclude verify hopened hshelf
    rw [outcome_bind_ok hrun, hconclude scope] at h
    obtain ⟨violation, rfl⟩ := Concrete.of_verdict_error h
    rfl

/-- The recovery of a statement, a block or an expression leaves every open node as it was, but for
the children of the innermost one, to which it adds; it takes back what it has deferred. Nothing is
asked of the session, nor of the tree. -/
theorem recovery_keeps_frame :
    (∀ (statement : Stmt) (scope : Scope) (session : Session),
      Kept false session (statement.recover.outcome scope session)) ∧
    (∀ (block : Block) (scope : Scope) (session : Session),
      Kept false session (block.recover.outcome scope session)) ∧
    (∀ (expr : Expr) (scope : Scope) (session : Session),
      Kept false session (expr.recover.outcome scope session)) ∧
    ∀ (program : Program) (text : String) (settings : Settings),
      match (program.concretise text settings).result with
      | .ok _ => True
      | .error failure => failure.concernsCursor = false := by
  refine ⟨?_, ?_, ?_, ?_⟩
  · exact fun statement scope session => (statement.sound False).kept scope session False.elim
  · exact fun block scope session => (block.sound False).kept scope session False.elim
  · exact fun expr scope session => (expr.sound False).builds.kept scope session False.elim
  · intro program text settings
    split
    · trivial
    · next failure hresult =>
      rw [Program.result_concretise] at hresult
      exact program.cursor_build settings.verify _ hresult

end Concretion
