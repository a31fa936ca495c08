import Concretion.Proofs.Runs

/-!
# Runs that succeed, taken apart

A run of a computation that is put together succeeds only if the runs of its parts do.

- `Node.cover_induction`: what holds of a node that is made to cover its children.
- `ok_of_bind`: computations in sequence.
- `ok_of_within`: a computation with a node open around it.
- `Program.ok_of_concretise`: the recovery of a whole program.
-/

namespace Concretion

namespace Node

variable {node covered : Node}

/-- A node that covers its children has the span that is merged from its own and theirs. -/
theorem foldlM_of_cover (h : node.cover = .ok covered) :
    ∃ span, node.children.foldlM (fun span child => span.merge child.span) node.span = .ok span ∧
      covered = { node with span := span } := by
  rw [cover] at h
  cases hspan : node.children.foldlM (fun span child => span.merge child.span) node.span with
  | error ends =>
    rw [hspan] at h
    cases h
  | ok span =>
    rw [hspan] at h
    cases h
    exact ⟨span, rfl, rfl⟩

/-- Covering its children changes nothing but the span of a node. -/
theorem eq_of_cover (h : node.cover = .ok covered) :
    ∃ span, covered = { node with span := span } := by
  obtain ⟨span, -, heq⟩ := foldlM_of_cover h
  exact ⟨span, heq⟩

/-- What merging keeps true of spans is true of the span of a node that covers its children. -/
theorem cover_induction {p : Span → Prop}
    (hmerge : ∀ {a b merged : Span}, a.merge b = .ok merged → p a → p b → p merged)
    (h : node.cover = .ok covered) (hnode : p node.span)
    (hchildren : ∀ child ∈ node.children, p child.span) : p covered.span := by
  have hfold : ∀ (children : List Node) (span wide : Span), p span →
      (∀ child ∈ children, p child.span) →
        children.foldlM (fun span child => span.merge child.span) span = .ok wide →
          p wide := by
    intro children
    induction children with
    | nil =>
      intro span wide hspan _ hwide
      cases hwide
      exact hspan
    | cons child rest ih =>
      intro span wide hspan hall hwide
      obtain ⟨hchild, hrest⟩ := List.forall_mem_cons.1 hall
      rw [List.foldlM_cons] at hwide
      cases hmerged : span.merge child.span with
      | error ends =>
        rw [hmerged] at hwide
        cases hwide
      | ok merged =>
        rw [hmerged] at hwide
        exact ih merged wide (hmerge hmerged hspan hchild) hrest hwide
  obtain ⟨wide, hwide, rfl⟩ := foldlM_of_cover h
  exact hfold node.children node.span wide hnode hchildren hwide

end Node

namespace Recover

variable {α β : Type} {scope : Scope} {session last : Session}

theorem ok_of_bind {action : Recover α} {next : α → Recover β} {result : β}
    (h : (action >>= next).outcome scope session = (.ok result, last)) :
    ∃ value later, action.outcome scope session = (.ok value, later) ∧
      (next value).outcome scope later = (.ok result, last) := by
  rcases hrun : action.outcome scope session with ⟨failure | value, later⟩
  · rw [outcome_bind_error hrun] at h
    cases h
  · exact ⟨value, later, rfl, by rwa [outcome_bind_ok hrun] at h⟩

theorem ok_of_orFail {found : Except Failure α} {value : α}
    (h : (orFail found).outcome scope session = (.ok value, last)) :
    found = .ok value ∧ last = session := by
  rw [outcome_orFail] at h
  exact ⟨congrArg Prod.fst h, (congrArg Prod.snd h).symm⟩

theorem ok_of_edit {change : Stack → Except Failure Stack}
    (h : (edit change).outcome scope session = (.ok (), last)) :
    ∃ made, change session.stack = .ok made ∧ last = { session with stack := made } := by
  rw [outcome_edit] at h
  split at h
  · next made hmade =>
    cases h
    exact ⟨made, hmade, rfl⟩
  · cases h

theorem ok_of_closeNode {closed : Node}
    (h : closeNode.outcome scope session = (.ok closed, last)) :
    session.stack.opened = closed :: last.stack.opened ∧
      last = session.closing last.stack closed.kind ∧ last.stack.root = session.stack.root := by
  obtain ⟨⟨root, opened⟩, names, shelf, skipsName, warnings, journal⟩ := session
  cases opened with
  | nil => cases h
  | cons node outer =>
    cases h
    exact ⟨rfl, rfl, rfl⟩

/-- The body has succeeded, and the node that was innermost then is the one that is closed. -/
theorem ok_of_within {node covered : Node} {body : Recover Unit}
    (h : (within node body).outcome scope session = (.ok covered, last)) :
    ∃ later closed, body.outcome scope (session.opening node) = (.ok (), later) ∧
      later.stack.opened = closed :: last.stack.opened ∧
      last.stack.root = later.stack.root ∧ last.shelf = later.shelf ∧
      last.warnings = later.warnings ∧ last.skipsName = later.skipsName ∧
      closed.cover = .ok covered := by
  have hopen : (openNode node).outcome scope session = (.ok (), session.opening node) := rfl
  rw [within, outcome_bind_ok hopen, outcome_bind_ok (outcome_attempt _ _ _)] at h
  -- The node is closed even after a failure. Only then is the outcome of the body looked at.
  obtain ⟨closed, closing, hclose, hafter⟩ := ok_of_bind h
  obtain ⟨wide, covering, hcover, hreach⟩ := ok_of_bind hafter
  obtain ⟨_, reaching, hreached, hreturn⟩ := ok_of_bind hreach
  obtain ⟨hopened, hclosing, hroot⟩ := ok_of_closeNode hclose
  obtain ⟨hwide, hcovering⟩ := ok_of_orFail hcover
  obtain ⟨hok, hreaching⟩ := ok_of_orFail hreached
  cases hreturn
  subst hreaching hcovering
  refine ⟨(body.outcome scope (session.opening node)).2, closed, Prod.ext hok rfl, hopened, hroot,
    ?_⟩
  rw [hclosing]
  refine ⟨rfl, rfl, rfl, ?_⟩
  cases hspan : closed.cover with
  | error ends =>
    rw [hspan] at hwide
    cases hwide
  | ok span =>
    rw [hspan] at hwide
    cases hwide
    rfl

end Recover

open Recover

/-- The tree of a program is the root that the recovery of its statements leaves behind. -/
theorem Program.ok_of_concretise {program : Program} {text : String} {settings : Settings}
    {concrete : Concrete} (h : (program.concretise text settings).result = .ok concrete) :
    ∃ later, program.recover.outcome (.of text program.info settings)
        (.initial (.of text program.info settings) program.uri) = (.ok (), later) ∧
      later.stack.opened = [] ∧ concrete = later.concrete := by
  rw [result_concretise] at h
  rcases hbuild : (program.build settings.verify).outcome (.of text program.info settings)
    (.initial (.of text program.info settings) program.uri) with ⟨result, last⟩
  rw [hbuild] at h
  subst h
  rw [build_eq] at hbuild
  obtain ⟨_, later, hrecover, hconclude⟩ := ok_of_bind hbuild
  obtain ⟨hopened, hshelf⟩ := program.done_of_recover hrecover
  obtain ⟨_, -, -, -, hverdict⟩ := program.outcome_conclude settings.verify hopened hshelf
  rw [hverdict] at hconclude
  exact ⟨later, hrecover, hopened, Concrete.eq_of_verdict_ok (congrArg Prod.fst hconclude)⟩

end Concretion
