import Concretion.Proofs.Sound.Tree

/-!
# Whole runs

A run recovers the statements of a program into an empty root, and then finishes and checks the
tree. By the time the tree is finished nothing is open and nothing deferred, so the check alone
decides what the run comes to.

- `Session.initial`: the session in which a run starts.
- `Program.conclude`: what is done after the statements have been recovered.
- `Concrete.verdict`: what a finished tree comes to.
-/

namespace Concretion

open Recover

/-- The session in which the recovery of a program starts. -/
def Session.initial (scope : Scope) (uri : String) : Session :=
  ((Session.start scope.source).note (.started uri scope.source.size)).note
    (.scanned scope.source.trivia.size scope.source.size)

namespace Session

theorem ordered_initial (scope : Scope) (uri : String) : (initial scope uri).stack.Ordered :=
  ⟨Node.ordered_bare (Span.ordered_ofBounds _ _) rfl, List.forall_mem_nil _⟩

theorem pending_initial (scope : Scope) (uri : String) :
    (initial scope uri).shelf.pending = fun _ => none := rfl

end Session

/-- A shelf on which nothing is pending is empty. -/
theorem Shelf.isEmpty_of_pending {shelf : Shelf} (h : shelf.pending = fun _ => none) :
    shelf.isEmpty = true := by
  have hnone : ∀ slot ∈ shelf.slots, slot.isSome = false := by
    intro slot hslot
    obtain ⟨index, hindex⟩ := List.mem_iff_getElem?.1 hslot
    have hpending := congrFun h index
    simp only [pending, hindex, Option.join_some] at hpending
    rw [hpending]
    rfl
  have hcount : shelf.count = 0 :=
    List.countP_eq_zero.2 fun slot hslot => by simp [hnone slot hslot]
  simp [isEmpty, hcount]

/-- The tree and the warnings of a session. -/
def Session.concrete (session : Session) : Concrete :=
  ⟨session.stack.root, session.warnings.toList⟩

/-- What a finished tree comes to: itself, unless it is checked and the check fails. -/
def Concrete.verdict (concrete : Concrete) (verify : Bool) : Except Failure Concrete :=
  if verify then
    match concrete.root.check with
    | .ok () => .ok concrete
    | .error violation => .error (.shape "ParseRoot" (.invalidTree violation) none)
  else .ok concrete

theorem Concrete.eq_of_verdict_ok {concrete finished : Concrete} {verify : Bool}
    (h : concrete.verdict verify = .ok finished) : finished = concrete := by
  simp only [verdict] at h
  split at h
  · split at h
    · cases h
      rfl
    · cases h
  · cases h
    rfl

theorem Concrete.verdict_eq_ok_iff {concrete finished : Concrete} {verify : Bool} :
    concrete.verdict verify = .ok finished ↔
      finished = concrete ∧ (verify = true → concrete.root.check = .ok ()) := by
  cases verify with
  | false =>
    constructor
    · exact fun h => ⟨Concrete.eq_of_verdict_ok h, fun hfalse => by cases hfalse⟩
    · rintro ⟨rfl, -⟩
      rfl
  | true =>
    simp only [verdict, if_true]
    cases concrete.root.check with
    | ok =>
      constructor
      · rintro ⟨⟩
        exact ⟨rfl, fun _ => rfl⟩
      · rintro ⟨rfl, -⟩
        rfl
    | error violation =>
      constructor
      · rintro ⟨⟩
      · rintro ⟨-, hcheck⟩
        cases hcheck trivial

theorem Concrete.of_verdict_error {concrete : Concrete} {verify : Bool} {failure : Failure}
    (h : concrete.verdict verify = .error failure) :
    ∃ violation, failure = .shape "ParseRoot" (.invalidTree violation) none := by
  simp only [verdict] at h
  split at h
  · split at h
    · cases h
    · cases h
      exact ⟨_, rfl⟩
  · cases h

namespace Program

variable (program : Program)

/-- What is done after the statements have been recovered. -/
def conclude (verify : Bool) : Recover Concrete := do
  let concrete ← Session.finish
  concrete.verified verify
  if !concrete.warnings.isEmpty then
    note (.unlocated concrete.warnings.length program.uri)
  note (.finished concrete.root)
  return concrete

theorem build_eq (verify : Bool) :
    program.build verify = program.recover >>= fun _ => program.conclude verify := rfl

theorem outcome_finish {session : Session} (scope : Scope) (hopened : session.stack.opened = [])
    (hshelf : session.shelf.isEmpty = true) :
    Session.finish.outcome scope session =
      (.ok session.concrete,
        session.note (.interned session.names.size session.names.reused)) := by
  obtain ⟨⟨root, opened⟩, names, shelf, skipsName, warnings, journal⟩ := session
  simp only at hopened hshelf
  subst hopened
  have hget : (get : Recover Session).outcome scope
      ⟨⟨root, []⟩, names, shelf, skipsName, warnings, journal⟩ = (.ok _, _) := rfl
  rw [Session.finish, outcome_bind_ok hget, hshelf]
  rfl

theorem outcome_verified (concrete : Concrete) (verify : Bool) (session : Session) :
    ∃ later : Session, later.stack = session.stack ∧ later.warnings = session.warnings ∧
      later.fallbacks = session.fallbacks ∧ ∀ scope,
        (concrete.verified verify).outcome scope session =
          ((concrete.verdict verify).map fun _ => (), later) := by
  cases verify with
  | false => exact ⟨session, rfl, rfl, rfl, fun _ => rfl⟩
  | true =>
    cases hcheck : concrete.root.check with
    | ok =>
      refine ⟨session, rfl, rfl, rfl, fun scope => ?_⟩
      simp only [Concrete.verified, Concrete.verdict, hcheck]
      rfl
    | error violation =>
      refine ⟨session.note (.invalid concrete.root), rfl, rfl, session.fallbacks_note rfl,
        fun scope => ?_⟩
      simp only [Concrete.verified, Concrete.verdict, hcheck]
      rfl

/-- With nothing open and nothing deferred, the tree is finished and judged. Only the journal is
added to. -/
theorem outcome_conclude (verify : Bool) {session : Session} (hopened : session.stack.opened = [])
    (hshelf : session.shelf.isEmpty = true) :
    ∃ later : Session, later.stack = session.stack ∧ later.warnings = session.warnings ∧
      later.fallbacks = session.fallbacks ∧ ∀ scope,
        (program.conclude verify).outcome scope session =
          (session.concrete.verdict verify, later) := by
  obtain ⟨checked, hstack, hwarnings, hfallbacks, hverified⟩ :=
    outcome_verified session.concrete verify
      (session.note (.interned session.names.size session.names.reused))
  have hfallbacks' : checked.fallbacks = session.fallbacks :=
    hfallbacks.trans (session.fallbacks_note rfl)
  -- The verdict does not depend on the scope, so the later session is chosen before the scope is.
  cases hverdict : session.concrete.verdict verify with
  | error failure =>
    refine ⟨checked, hstack, hwarnings, hfallbacks', fun scope => ?_⟩
    have hchecked := hverified scope
    rw [hverdict] at hchecked
    rw [conclude, outcome_bind_ok (outcome_finish scope hopened hshelf),
      outcome_bind_error hchecked]
  | ok finished =>
    have hsame : finished = session.concrete := Concrete.eq_of_verdict_ok hverdict
    cases hnone : session.concrete.warnings.isEmpty with
    | true =>
      refine ⟨checked.note (.finished session.concrete.root), hstack, hwarnings,
        (checked.fallbacks_note rfl).trans hfallbacks', fun scope => ?_⟩
      have hchecked := hverified scope
      rw [hverdict] at hchecked
      rw [conclude, outcome_bind_ok (outcome_finish scope hopened hshelf),
        outcome_bind_ok hchecked, hnone, hsame]
      rfl
    | false =>
      refine ⟨(checked.note (.unlocated session.concrete.warnings.length program.uri)).note
        (.finished session.concrete.root), hstack, hwarnings, ?_, fun scope => ?_⟩
      · rw [Session.fallbacks_note _ rfl, Session.fallbacks_note _ rfl, hfallbacks']
      · have hchecked := hverified scope
        rw [hverdict] at hchecked
        rw [conclude, outcome_bind_ok (outcome_finish scope hopened hshelf),
          outcome_bind_ok hchecked, hnone, hsame]
        rfl

/-- Once the statements have been recovered nothing is open above the root and nothing deferred. -/
theorem done_of_recover {scope : Scope} {later : Session}
    (h : program.recover.outcome scope (.initial scope program.uri) = (.ok (), later)) :
    later.stack.opened = [] ∧ later.shelf.isEmpty = true := by
  have hkept := (program.sound_recover False).kept scope (.initial scope program.uri)
    fun hfalse => hfalse.elim
  rw [h] at hkept
  refine ⟨List.length_eq_zero_iff.1 hkept.frame.depth, Shelf.isEmpty_of_pending ?_⟩
  exact (hkept.pending () rfl).trans (Session.pending_initial scope program.uri)

theorem result_concretise (text : String) (settings : Settings) :
    (program.concretise text settings).result =
      ((program.build settings.verify).outcome (.of text program.info settings)
        (.initial (.of text program.info settings) program.uri)).1 := rfl

/-- Once the statements have been recovered, the tree that has come of it is judged. -/
theorem result_of_recover {text : String} {settings : Settings} {later : Session}
    (h : program.recover.outcome (.of text program.info settings)
      (.initial (.of text program.info settings) program.uri) = (.ok (), later)) :
    (program.concretise text settings).result = later.concrete.verdict settings.verify := by
  obtain ⟨hopened, hshelf⟩ := program.done_of_recover h
  obtain ⟨_, -, -, -, hconclude⟩ := program.outcome_conclude settings.verify hopened hshelf
  rw [result_concretise, build_eq, outcome_bind_ok h, hconclude]

end Program

/-- The tokens that the journal of a run reports as missing, in the order in which they were
missed. -/
def Outcome.fallbacks (outcome : Outcome) : List Missing :=
  outcome.journal.toList.filterMap Entry.fallback?

end Concretion
