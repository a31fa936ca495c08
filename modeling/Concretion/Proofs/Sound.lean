import Concretion.Proofs.Frame
import Concretion.Proofs.Order

/-!
# Sound computations

Three things hold of every computation that takes part in a recovery, and all three are kept by
sequencing. They are stated together, so that each rule needs to be gone through only once.

- `Kept`: a run changes nothing but the innermost open node, and takes back what it has deferred.
- `Tidy`: a run with the spans of the open nodes in order leaves them in order.
- `CutOff`: a run that may not miss a token goes as far as the first token that the other misses.
- `Sound`: the three of them, for all scopes and sessions, with what is known of the result.
- `Sound.bind`, `Sound.enter`, `Sound.deferring` and so on: soundness of what is put together.
-/

namespace Concretion

/-- The token that an entry reports as missing. -/
def Entry.fallback? : Entry → Option Missing
  | fallback token => some token
  | _ => none

/-- The tokens that the journal reports as missing. -/
def Session.fallbacks (session : Session) : List Missing :=
  session.journal.toList.filterMap Entry.fallback?

namespace Scope

/-- The scope in which a missing token is replaced by a fallback. -/
def lenient (scope : Scope) : Scope := { scope with strict := false }

/-- The scope in which a missing token ends the recovery. -/
def strictly (scope : Scope) : Scope := { scope with strict := true }

end Scope

namespace Recover

variable {α β : Type}

/-! ## Outcomes -/

/-- What a computation comes to in a session, and what becomes of the session. -/
def outcome (action : Recover α) (scope : Scope) (session : Session) :
    Except Failure α × Session :=
  (action.run scope).run session

@[simp] theorem outcome_pure (value : α) (scope : Scope) (session : Session) :
    (pure value : Recover α).outcome scope session = (.ok value, session) := rfl

@[simp] theorem outcome_getStack (scope : Scope) (session : Session) :
    getStack.outcome scope session = (.ok session.stack, session) := rfl

@[simp] theorem outcome_source (scope : Scope) (session : Session) :
    source.outcome scope session = (.ok scope.source, session) := rfl

@[simp] theorem outcome_orFail (result : Except Failure α) (scope : Scope) (session : Session) :
    (orFail result).outcome scope session = (result, session) := by
  cases result <;> rfl

theorem outcome_edit (change : Stack → Except Failure Stack) (scope : Scope) (session : Session) :
    (edit change).outcome scope session = match change session.stack with
      | .ok stack => (.ok (), { session with stack := stack })
      | .error failure => (.error failure, session) := by
  show (orFail (change session.stack) >>= _).outcome scope session = _
  cases change session.stack <;> rfl

@[simp] theorem outcome_attempt (action : Recover α) (scope : Scope) (session : Session) :
    (attempt action).outcome scope session =
      (.ok (action.outcome scope session).1, (action.outcome scope session).2) := rfl

theorem outcome_bind_ok {action : Recover α} {next : α → Recover β} {scope : Scope}
    {session later : Session} {value : α}
    (h : action.outcome scope session = (.ok value, later)) :
    (action >>= next).outcome scope session = (next value).outcome scope later := by
  change action scope session = (.ok value, later) at h
  simp only [outcome, ReaderT.run, ExceptT.run, bind, ReaderT.bind, ExceptT.bind, ExceptT.mk,
    StateT.bind, h]
  rfl

theorem outcome_bind_error {action : Recover α} {next : α → Recover β} {scope : Scope}
    {session later : Session} {failure : Failure}
    (h : action.outcome scope session = (.error failure, later)) :
    (action >>= next).outcome scope session = (.error failure, later) := by
  change action scope session = (.error failure, later) at h
  simp only [outcome, ReaderT.run, ExceptT.run, bind, ReaderT.bind, ExceptT.bind, ExceptT.mk,
    StateT.bind, h]
  rfl

/-! ## What holds of runs -/

/-- A run that changes nothing but the innermost open node. What it deferred it has taken back
when it succeeds, and it never fails because something open or deferred was lost. -/
structure Kept (inner : Bool) (session : Session) (run : Except Failure α × Session) : Prop where
  frame : Stack.Frame inner session.stack run.2.stack
  pending : ∀ value, run.1 = .ok value → run.2.shelf.pending = session.shelf.pending
  cursor : ∀ failure, run.1 = .error failure → failure.concernsCursor = false

/-- A run that leaves the spans of all open nodes in order. -/
structure Tidy (result : α → Prop) (run : Except Failure α × Session) : Prop where
  stack : run.2.stack.Ordered
  value : ∀ value, run.1 = .ok value → result value
  failure : ∀ failure, run.1 = .error failure → failure.Ordered

/-- Two runs, of which the second goes as far as the first token that the first one misses. The
tokens missed are the warnings of the first run, which does not fail because of any of them. -/
structure CutOff (session : Session) (missed : List Missing)
    (lenient strict : Except Failure α × Session) : Prop where
  warnings : lenient.2.warnings.toList = session.warnings.toList ++ missed
  fallbacks : lenient.2.fallbacks = session.fallbacks ++ missed
  goesOn : ∀ failure, lenient.1 = .error failure → failure.isWarning = false
  same : missed = [] → strict = lenient
  first : ∀ token ∈ missed.head?, strict.1 = .error (.missing token)

/-- A computation of which all runs are as they should be. Where order is not asked for, the spans
of a session, and of what is put into it, need not be in order. -/
structure Sound (orderly : Prop) (inner : Bool) (action : Recover α) (result : α → Prop) :
    Prop where
  kept : ∀ (scope : Scope) (session : Session), (orderly → session.stack.Ordered) →
    Kept inner session (action.outcome scope session)
  tidy : orderly → ∀ (scope : Scope) (session : Session), session.stack.Ordered →
    Tidy result (action.outcome scope session)
  cutOff : orderly → ∀ (scope : Scope) (session : Session), session.stack.Ordered →
    ∃ missed, CutOff session missed (action.outcome scope.lenient session)
      (action.outcome scope.strictly session)

/-- Soundness of a computation of whose result nothing needs to be known. -/
abbrev Builds (orderly : Prop) (inner : Bool) (action : Recover α) : Prop :=
  Sound orderly inner action fun _ => True

theorem CutOff.of_same {session : Session} {run : Except Failure α × Session}
    (hw : run.2.warnings = session.warnings) (hf : run.2.fallbacks = session.fallbacks)
    (hm : ∀ failure, run.1 = .error failure → failure.isWarning = false) :
    CutOff session [] run run where
  warnings := by rw [hw, List.append_nil]
  fallbacks := by rw [hf, List.append_nil]
  goesOn := hm
  same _ := rfl
  first _ h := by cases h

namespace Sound

variable {orderly : Prop} {inner : Bool} {action : Recover α} {result : α → Prop}

/-! ## Sequencing -/

/-- Where a computation may change the children of the open node at will, it may also keep them. -/
theorem relax (h : Sound orderly false action result) : Sound orderly inner action result where
  kept scope session ho :=
    let kept := h.kept scope session ho
    ⟨kept.frame.relax, kept.pending, kept.cursor⟩
  tidy := h.tidy
  cutOff := h.cutOff

theorem mono {weaker : α → Prop} (h : Sound orderly inner action result)
    (hw : orderly → ∀ value, result value → weaker value) :
    Sound orderly inner action weaker where
  kept := h.kept
  tidy o scope session hs :=
    let tidy := h.tidy o scope session hs
    ⟨tidy.stack, fun value hv => hw o value (tidy.value value hv), tidy.failure⟩
  cutOff := h.cutOff

theorem builds (h : Sound orderly inner action result) : Builds orderly inner action :=
  h.mono fun _ _ _ => trivial

theorem pure {value : α} (hv : orderly → result value) :
    Sound orderly inner (Pure.pure value) result where
  kept _ _ _ := ⟨.refl _, fun _ _ => rfl, fun _ h => by cases h⟩
  tidy o _ _ hs :=
    ⟨hs, fun _ h => Except.ok.inj h ▸ hv o, fun _ h => by cases h⟩
  cutOff _ _ _ _ := ⟨[], .of_same rfl rfl fun _ h => by cases h⟩

theorem throw {failure : Failure} (hc : failure.concernsCursor = false)
    (hw : failure.isWarning = false) (ho : orderly → failure.Ordered) :
    Sound orderly inner (throw failure : Recover α) result where
  kept _ _ _ := ⟨.refl _, fun _ h => (by cases h), fun _ h => Except.error.inj h ▸ hc⟩
  tidy o _ _ hs :=
    ⟨hs, fun _ h => (by cases h), fun _ h => Except.error.inj h ▸ ho o⟩
  cutOff _ _ _ _ := ⟨[], .of_same rfl rfl fun _ h => Except.error.inj h ▸ hw⟩

theorem kept_bind {next : α → Recover β} {scope : Scope} {session : Session}
    (h : Kept inner session (action.outcome scope session))
    (hn : ∀ value later, action.outcome scope session = (.ok value, later) →
      Kept inner later ((next value).outcome scope later)) :
    Kept inner session ((action >>= next).outcome scope session) := by
  rcases hrun : action.outcome scope session with ⟨_ | value, later⟩
  · rw [outcome_bind_error hrun]
    rw [hrun] at h
    exact ⟨h.frame, fun _ hv => (by cases hv),
      fun failure hf => h.cursor failure (by simpa using hf)⟩
  · rw [outcome_bind_ok hrun]
    have hnext := hn value later hrun
    rw [hrun] at h
    exact ⟨h.frame.trans hnext.frame,
      fun result hr => (hnext.pending result hr).trans (h.pending value rfl), hnext.cursor⟩

theorem tidy_bind {next : α → Recover β} {after : β → Prop} {scope : Scope} {session : Session}
    (h : Tidy result (action.outcome scope session))
    (hn : ∀ value later, result value → later.stack.Ordered →
      Tidy after ((next value).outcome scope later)) :
    Tidy after ((action >>= next).outcome scope session) := by
  rcases hrun : action.outcome scope session with ⟨_ | value, later⟩
  · rw [outcome_bind_error hrun]
    rw [hrun] at h
    exact ⟨h.stack, fun _ hv => (by cases hv),
      fun failure hf => h.failure failure (by simpa using hf)⟩
  · rw [outcome_bind_ok hrun]
    rw [hrun] at h
    exact hn value later (h.value value rfl) h.stack

/-- What two runs in sequence miss is what the first one misses and then what the second one
does. If the first one misses anything, the strict run does not get to the second. -/
theorem cutOff_bind {next : α → Recover β} {scope : Scope} {session : Session}
    (h : ∃ missed, CutOff session missed (action.outcome scope.lenient session)
      (action.outcome scope.strictly session))
    (hn : ∀ value later, action.outcome scope.lenient session = (.ok value, later) →
      ∃ missed, CutOff later missed ((next value).outcome scope.lenient later)
        ((next value).outcome scope.strictly later)) :
    ∃ missed, CutOff session missed ((action >>= next).outcome scope.lenient session)
      ((action >>= next).outcome scope.strictly session) := by
  obtain ⟨missed, h⟩ := h
  -- If the first run misses a token, the strict run ends with it, whatever comes next.
  have hstop : ∀ token ∈ missed.head?,
      ((action >>= next).outcome scope.strictly session).1 = .error (.missing token) := by
    intro token htoken
    rcases hstrict : action.outcome scope.strictly session with ⟨failure, later⟩
    have hfirst := h.first token htoken
    rw [hstrict] at hfirst
    cases hfirst
    rw [outcome_bind_error hstrict]
  rcases hrun : action.outcome scope.lenient session with ⟨failure | value, later⟩
  · refine ⟨missed, ?_⟩
    have hsame := h.same
    have hgoesOn := h.goesOn
    have hwarnings := h.warnings
    have hfallbacks := h.fallbacks
    rw [hrun] at hsame hgoesOn hwarnings hfallbacks
    rw [outcome_bind_error hrun]
    refine ⟨hwarnings, hfallbacks, fun failure hf => hgoesOn failure (by simpa using hf), ?_, hstop⟩
    intro hnone
    exact outcome_bind_error (hsame hnone)
  · obtain ⟨further, hnext⟩ := hn value later hrun
    refine ⟨missed ++ further, ?_⟩
    have hsame := h.same
    have hwarnings := h.warnings
    have hfallbacks := h.fallbacks
    rw [hrun] at hsame hwarnings hfallbacks
    rw [outcome_bind_ok hrun]
    refine ⟨?_, ?_, hnext.goesOn, ?_, ?_⟩
    · rw [hnext.warnings, hwarnings, List.append_assoc]
    · rw [hnext.fallbacks, hfallbacks, List.append_assoc]
    · intro hnone
      obtain ⟨hnone, hnone'⟩ := List.append_eq_nil_iff.1 hnone
      rw [outcome_bind_ok (hsame hnone)]
      exact hnext.same hnone'
    · intro token htoken
      cases missed with
      | nil =>
        rw [outcome_bind_ok (hsame rfl)]
        exact hnext.first token htoken
      | cons first rest => exact hstop token htoken

theorem bind {next : α → Recover β} {after : β → Prop} (h : Sound orderly inner action result)
    (hn : ∀ value, (orderly → result value) → Sound orderly inner (next value) after) :
    Sound orderly inner (action >>= next) after where
  kept scope session ho := by
    refine kept_bind (h.kept scope session ho) fun value later hrun => ?_
    have hvalue : orderly → result value := fun o =>
      (h.tidy o scope session (ho o)).value value (by rw [hrun])
    refine (hn value hvalue).kept scope later fun o => ?_
    have htidy := (h.tidy o scope session (ho o)).stack
    rwa [hrun] at htidy
  tidy o scope session hs :=
    tidy_bind (h.tidy o scope session hs) fun value later hv hl =>
      (hn value fun _ => hv).tidy o scope later hl
  cutOff o scope session hs := by
    refine cutOff_bind (h.cutOff o scope session hs) fun value later hrun => ?_
    have htidy := h.tidy o scope.lenient session hs
    rw [hrun] at htidy
    exact (hn value fun _ => htidy.value value rfl).cutOff o scope later htidy.stack

/-- A computation is sound on its own account, whatever the one before it yields. -/
theorem andThen {next : Recover β} {after : β → Prop} (h : Builds orderly inner action)
    (hn : Sound orderly inner next after) : Sound orderly inner (action >>= fun _ => next) after :=
  h.bind fun _ _ => hn

/-! ## Loops -/

theorem forM {γ : Type} {step : γ → Recover Unit} {list : List γ}
    (h : ∀ item ∈ list, Builds orderly inner (step item)) :
    Builds orderly inner (list.forM step) := by
  induction list with
  | nil => exact pure fun _ => trivial
  | cons item rest ih =>
    show Builds orderly inner (step item >>= fun _ => rest.forM step)
    refine (h item List.mem_cons_self).andThen (ih fun other hmem => ?_)
    exact h other (List.mem_cons_of_mem _ hmem)

theorem foldlM {γ : Type} {step : α → γ → Recover α} {list : List γ} {value : α}
    (hv : orderly → result value)
    (h : ∀ item ∈ list, ∀ value, (orderly → result value) →
      Sound orderly inner (step value item) result) :
    Sound orderly inner (list.foldlM step value) result := by
  induction list generalizing value with
  | nil => exact pure hv
  | cons item rest ih =>
    rw [List.foldlM_cons]
    refine (h item List.mem_cons_self value hv).bind fun value hv => ih hv fun other hmem => ?_
    exact h other (List.mem_cons_of_mem _ hmem)

theorem mapM {γ : Type} {step : γ → Recover α} {list : List γ}
    (h : ∀ item ∈ list, Sound orderly inner (step item) result) :
    Sound orderly inner (list.mapM step) fun values => ∀ value ∈ values, result value := by
  induction list with
  | nil =>
    rw [List.mapM_nil]
    exact pure fun _ _ hmem => by cases hmem
  | cons item rest ih =>
    rw [List.mapM_cons]
    refine (h item List.mem_cons_self).bind fun value hv => ?_
    refine (ih fun other hmem => h other (List.mem_cons_of_mem _ hmem)).bind fun values hvs => ?_
    exact pure fun o => List.forall_mem_cons.2 ⟨hv o, hvs o⟩

end Sound

end Recover

end Concretion
