import Concretion.Proofs.Growth.Lookups
import Concretion.Recovery.Rule.Block

/-!
# Names that are skipped

The declaration of a function is a node that has its name below it, and yet it is the value of a
binding with that name. So the recovery of such a function asks that the next name be skipped, and
the next identifier answers that, whether or not it is the name of the binding. The request must
not get to any other identifier.

- `Quiet`: computations after which no name is to be skipped if none was to be skipped before.
- `Answers`: computations after which no name is to be skipped in any case.
- `Quiet.within`, `Quiet.forM` and so on: steps that keep quiet.
-/

namespace Concretion

namespace Recover

variable {α β : Type} {scope : Scope}

/-- If no name was to be skipped, none is when the run has succeeded. -/
def Quiet (scope : Scope) (action : Recover α) : Prop :=
  ∀ session value last, action.outcome scope session = (.ok value, last) →
    session.skipsName = false → last.skipsName = false

/-- No name is to be skipped when the run has succeeded. -/
def Answers (scope : Scope) (action : Recover α) : Prop :=
  ∀ session value last, action.outcome scope session = (.ok value, last) → last.skipsName = false

theorem Answers.quiet {action : Recover α} (h : Answers scope action) : Quiet scope action :=
  fun session value last hrun _ => h session value last hrun

/-- What has been asked for before does not matter. -/
theorem Answers.behind {action : Recover α} {next : α → Recover β}
    (h : ∀ value, Answers scope (next value)) : Answers scope (action >>= next) := by
  intro session value last hrun
  obtain ⟨found, later, -, hsecond⟩ := ok_of_bind hrun
  exact h found later value last hsecond

theorem Answers.takeSkip : Answers scope takeSkip := by
  rintro session value last ⟨⟩
  rfl

theorem Answers.bind {action : Recover α} {next : α → Recover β} (h : Answers scope action)
    (hn : ∀ value, Quiet scope (next value)) : Answers scope (action >>= next) := by
  intro session value last hrun
  obtain ⟨found, later, hfirst, hsecond⟩ := ok_of_bind hrun
  exact hn found later value last hsecond (h session found later hfirst)

theorem Answers.within {node : Node} {body : Recover Unit} (h : Answers scope body) :
    Answers scope (within node body) := by
  intro session made last hrun
  obtain ⟨later, closed, hbody, -, -, -, -, hlast, -⟩ := ok_of_within hrun
  exact hlast.trans (h (session.opening node) () later hbody)

namespace Quiet

variable {action : Recover α}

/-! ## Sequencing -/

theorem pure {value : α} : Quiet scope (Pure.pure value) := by
  rintro session _ last ⟨⟩ hskips
  exact hskips

theorem throw {failure : Failure} : Quiet scope (throw failure : Recover α) := by
  rintro session value last ⟨⟩

theorem bind {next : α → Recover β} (h : Quiet scope action)
    (hn : ∀ value, Quiet scope (next value)) : Quiet scope (action >>= next) := by
  intro session value last hrun hskips
  obtain ⟨found, later, hfirst, hsecond⟩ := ok_of_bind hrun
  exact hn found later value last hsecond (h session found later hfirst hskips)

theorem andThen {action : Recover Unit} {next : Recover α} (h : Quiet scope action)
    (hn : Quiet scope next) : Quiet scope (action >>= fun _ => next) :=
  h.bind fun _ => hn

theorem forM {γ : Type} {step : γ → Recover Unit} {list : List γ}
    (h : ∀ item ∈ list, Quiet scope (step item)) : Quiet scope (list.forM step) := by
  induction list with
  | nil => exact pure
  | cons item rest ih =>
    obtain ⟨hitem, hrest⟩ := List.forall_mem_cons.1 h
    show Quiet scope (step item >>= fun _ => rest.forM step)
    exact hitem.andThen (ih hrest)

/-- What leaves the children alone asks for no name to be skipped. -/
theorem ofLooks {result : α → Prop} (h : Looks scope action result) : Quiet scope action :=
  fun session value last hrun hskips => (h _ session rfl hskips value last hrun).1.skipsName

/-- What follows a lookup. -/
theorem after {found : α → Prop} {next : α → Recover β} (h : Looks scope action found)
    (hn : ∀ value, Quiet scope (next value)) : Quiet scope (action >>= next) :=
  (ofLooks h).bind hn

/-! ## Steps -/

/-- A step that neither asks for a name to be skipped nor answers that. -/
theorem aside (value : Session → α) (next : Session → Session)
    (hrun : ∀ session, action.outcome scope session = (.ok (value session), next session))
    (hnext : ∀ session, (next session).skipsName = session.skipsName) : Quiet scope action := by
  intro session found last hfound hskips
  rw [hrun] at hfound
  cases hfound
  exact (hnext session).trans hskips

theorem getStack : Quiet scope getStack :=
  aside (·.stack) id (fun _ => rfl) fun _ => rfl

theorem modifyStack (change : Stack → Stack) : Quiet scope (modifyStack change) :=
  aside (fun _ => ()) (fun session => { session with stack := change session.stack })
    (fun _ => rfl) fun _ => rfl

theorem attach (node : Node) : Quiet scope (attach node) := modifyStack _

/-- A change to the stack that may be refused. -/
theorem edit (change : Stack → Except Failure Stack) : Quiet scope (edit change) :=
  getStack.bind fun _ => after (.orFail _) fun _ => modifyStack _

theorem reorder (permutation : List Nat) : Quiet scope (reorder permutation) :=
  edit _

theorem groupLastChild : Quiet scope groupLastChild := edit _

theorem wrapChild (index : Nat) (wrapper : Node) : Quiet scope (wrapChild index wrapper) :=
  edit _

theorem expectChildren (expected : Nat) : Quiet scope (expectChildren expected) := by
  refine getStack.bind fun stack => ?_
  dsimp only
  split
  · exact throw
  · exact pure

theorem defer (node : Node) : Quiet scope (defer node) :=
  aside (fun session => (session.shelf.put node).1) (fun session => session.deferred node)
    (fun _ => rfl) fun _ => rfl

theorem takeDeferred (ticket : Ticket) : Quiet scope (takeDeferred ticket) := by
  have hget : Quiet scope (get : Recover Session) := aside id id (fun _ => rfl) fun _ => rfl
  refine hget.bind fun session => after (.orFail _) fun taken => ?_
  exact (aside (fun _ => ()) (fun session => { session with shelf := taken.2 }) (fun _ => rfl)
    fun _ => rfl).bind fun _ => pure

/-! ## Open nodes -/

theorem within {node : Node} {body : Recover Unit} (h : Quiet scope body) :
    Quiet scope (within node body) := by
  intro session made last hrun hskips
  obtain ⟨later, closed, hbody, -, -, -, -, hlast, -⟩ := ok_of_within hrun
  exact hlast.trans (h (session.opening node) () later hbody hskips)

theorem enter {node : Node} {body : Recover Unit} (h : Quiet scope body) :
    Quiet scope (enter node body) :=
  h.within.bind fun _ => attach _

end Quiet

end Recover

end Concretion
