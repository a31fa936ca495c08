import Concretion.Proofs.Runs

/-!
# Recovery without fallbacks

A run that may not miss a token is a run that may, cut off at the first token missed.
-/

namespace Concretion

open Recover

/-- The two ways to recover a program, side by side. -/
theorem Program.cutOff_build (program : Program) (verify : Bool) (scope : Scope) :
    ∃ missed, CutOff (.initial scope program.uri) missed
      ((program.build verify).outcome scope.lenient (.initial scope program.uri))
      ((program.build verify).outcome scope.strictly (.initial scope program.uri)) := by
  have hsound := program.sound_recover True
  have hordered := Session.ordered_initial scope program.uri
  rw [build_eq]
  refine Sound.cutOff_bind (hsound.cutOff trivial scope _ hordered) fun _ later hrun => ⟨[], ?_⟩
  have hrun : program.recover.outcome scope.lenient (.initial scope.lenient program.uri) =
    (.ok (), later) := hrun
  obtain ⟨hopened, hshelf⟩ := program.done_of_recover hrun
  obtain ⟨last, -, hwarnings, hfallbacks, hconclude⟩ :=
    program.outcome_conclude verify hopened hshelf
  rw [hconclude, hconclude]
  refine .of_same hwarnings hfallbacks fun failure hfailure => ?_
  obtain ⟨violation, rfl⟩ := Concrete.of_verdict_error hfailure
  rfl

/-- A program of which no token is missed is recovered in the same way with fallbacks and without
them. -/
theorem Program.outcome_of_unmissed (program : Program) {scope : Scope} {later : Session}
    (h : program.recover.outcome scope (.initial scope program.uri) = (.ok (), later))
    (hnone : later.warnings.toList = []) (strict : Bool) :
    program.recover.outcome { scope with strict := strict } (.initial scope program.uri) =
      (.ok (), later) := by
  obtain ⟨missed, hcut⟩ := (program.sound_recover True).cutOff trivial scope _
    (Session.ordered_initial scope program.uri)
  obtain ⟨source, info, isStrict⟩ := scope
  -- A lenient run has warned of what was missed, and a strict one would have failed at the first of
  -- it.
  have hmissed : missed = [] := by
    cases isStrict with
    | false =>
      have hwarnings := hcut.warnings
      rw [Scope.lenient, h, hnone] at hwarnings
      exact hwarnings.symm
    | true =>
      cases missed with
      | nil => rfl
      | cons first rest =>
        have hfirst := hcut.first first rfl
        rw [Scope.strictly, h] at hfirst
        cases hfirst
  -- Where nothing is missed, both runs are the same.
  have hsame := hcut.same hmissed
  cases isStrict with
  | false =>
    cases strict with
    | false => exact h
    | true => exact hsame.trans h
  | true =>
    cases strict with
    | false => exact hsame.symm.trans h
    | true => exact h

/-- The warnings of a tree are the tokens that the run missed on the way. -/
theorem Program.warnings_build (program : Program) (verify : Bool) (scope : Scope)
    {concrete : Concrete} {later : Session}
    (h : (program.build verify).outcome scope (.initial scope program.uri) =
      (.ok concrete, later)) :
    concrete.warnings = later.warnings.toList := by
  rw [build_eq] at h
  rcases hrun : program.recover.outcome scope (.initial scope program.uri) with ⟨failure | _, done⟩
  · rw [outcome_bind_error hrun] at h
    cases h
  · obtain ⟨hopened, hshelf⟩ := program.done_of_recover hrun
    obtain ⟨last, -, hwarnings, -, hconclude⟩ := program.outcome_conclude verify hopened hshelf
    rw [outcome_bind_ok hrun, hconclude] at h
    obtain ⟨hverdict, rfl⟩ := Prod.mk.inj h
    rw [Concrete.eq_of_verdict_ok hverdict, hwarnings]
    rfl

/-- The failure of a run that must not miss any of the given tokens, or its result if there are
none. -/
def cutAtFirst (missed : List Missing) (result : Except Failure Concrete) :
    Except Failure Concrete :=
  match missed with
  | [] => result
  | first :: _ => .error (.missing first)

/-- Recovering without fallbacks is recovering with them up to the first token that is missed. If
none is missed, both ways come to the same tree, without warnings, or to the same failure. If some
are, the first of them is the failure; with fallbacks a missing token never is one. -/
theorem strict_recovery_is_cut_off (program : Program) (text : String) (mode : ScanMode)
    (verify : Bool) :
    let lenient := program.concretise text ⟨mode, false, verify⟩
    let strict := program.concretise text ⟨mode, true, verify⟩
    match lenient.result with
    | .ok concrete =>
      concrete.warnings = lenient.fallbacks ∧
        strict.result = cutAtFirst concrete.warnings (.ok ⟨concrete.root, []⟩)
    | .error failure =>
      failure.isWarning = false ∧
        strict.result = cutAtFirst lenient.fallbacks (.error failure) := by
  intro lenient strict
  let scope := Scope.of text program.info ⟨mode, false, verify⟩
  obtain ⟨missed, hcut⟩ := program.cutOff_build verify scope
  rcases hrun : (program.build verify).outcome scope.lenient (.initial scope program.uri)
    with ⟨result, later⟩
  rcases hrun' : (program.build verify).outcome scope.strictly (.initial scope program.uri)
    with ⟨result', later'⟩
  have hresult : lenient.result = result := congrArg Prod.fst hrun
  have hresult' : strict.result = result' := congrArg Prod.fst hrun'
  rw [hrun, hrun'] at hcut
  have hmissed : lenient.fallbacks = missed :=
    (congrArg (fun run => run.2.fallbacks) hrun).trans hcut.fallbacks
  have hstrict : strict.result = cutAtFirst missed result := by
    rw [hresult']
    cases missed with
    | nil => exact congrArg Prod.fst (hcut.same rfl)
    | cons first rest => exact hcut.first first rfl
  rw [hresult, hmissed]
  cases result with
  | error failure => exact ⟨hcut.goesOn failure rfl, hstrict⟩
  | ok concrete =>
    have hwarnings : concrete.warnings = missed :=
      (program.warnings_build verify scope.lenient hrun).trans hcut.warnings
    refine ⟨hwarnings, hstrict.trans ?_⟩
    rw [hwarnings]
    cases missed with
    | nil =>
      obtain ⟨root, warnings⟩ := concrete
      cases hwarnings
      rfl
    | cons first rest => rfl

end Concretion
