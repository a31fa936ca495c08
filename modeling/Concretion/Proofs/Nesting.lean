import Concretion.Proofs.Inversion

/-!
# Nested trees

A node lies around its children when it is closed, because it is then made to cover them. Some nodes
are put together without ever being open, though, and some that are closed already are changed
again. This module says what each step of a recovery does to the nodes that are closed; it is the
same for them all: they stay around what is below them.

- `Node.Nested`: every node of the tree lies around its children.
- `Session.Nested`: what is below the open nodes is nested, and so is what has been deferred.
- `Nests`: a run that succeeds in a nested session leaves a nested session.
- `Still`: a run that succeeds leaves the open nodes as they are.
- `Nests.bind`, `Nests.within`, `Nests.attach` and so on: what is put together out of such steps.
-/

namespace Concretion

/-- A span lies around both spans that it was merged from. -/
theorem Span.contains_of_merge {a b span : Span} (h : a.merge b = .ok span) :
    span.contains a = true ∧ span.contains b = true := by
  obtain ⟨-, rfl⟩ := Span.make_eq_ok_iff.1 h
  constructor
  · exact contains_iff.2 ⟨Nat.min_le_left _ _, Nat.le_max_left _ _⟩
  · exact contains_iff.2 ⟨Nat.min_le_right _ _, Nat.le_max_right _ _⟩

theorem Span.contains_refl (span : Span) : span.contains span = true :=
  contains_iff.2 ⟨Nat.le_refl _, Nat.le_refl _⟩

/-- What lies around a span lies around all that is in it. -/
theorem Span.contains_trans {a b c : Span} (hab : a.contains b = true)
    (hbc : b.contains c = true) : a.contains c = true := by
  rw [contains_iff] at *
  exact ⟨hab.1.trans hbc.1, hbc.2.trans hab.2⟩

/-- A span that lies around another one still does when both are merged with the same span. -/
theorem Span.contains_merge {a b other outer inner : Span} (h : a.contains b = true)
    (houter : a.merge other = .ok outer) (hinner : b.merge other = .ok inner) :
    outer.contains inner = true := by
  obtain ⟨-, rfl⟩ := Span.make_eq_ok_iff.1 houter
  obtain ⟨-, rfl⟩ := Span.make_eq_ok_iff.1 hinner
  rw [contains_iff] at *
  show min a.start other.start ≤ min b.start other.start ∧
    max b.last other.last ≤ max a.last other.last
  omega

namespace Node

/-- Every node of the tree lies around its children. -/
def Nested (node : Node) : Prop :=
  ∀ part ∈ node.preorder, ∀ child ∈ part.children, part.span.contains child.span = true

/-- The span lies around the nodes, each of which is nested. -/
def Around (span : Span) (nodes : List Node) : Prop :=
  ∀ node ∈ nodes, span.contains node.span = true ∧ node.Nested

/-- It is enough that the node lies around its children and that each of them is nested. -/
theorem nested_iff {node : Node} : node.Nested ↔ Around node.span node.children := by
  constructor
  · intro h child hchild
    refine ⟨h node (mem_preorder.2 (.inl rfl)) child hchild, ?_⟩
    intro part hpart
    exact h part (mem_preorder.2 (.inr ⟨child, hchild, hpart⟩))
  · intro h part hpart
    rcases mem_preorder.1 hpart with rfl | ⟨child, hchild, hpart⟩
    · exact fun child hchild => (h child hchild).1
    · exact (h child hchild).2 part hpart

/-- A wider span lies around the same nodes. -/
theorem Around.widen {inner outer : Span} {nodes : List Node} (h : Around inner nodes)
    (ho : outer.contains inner = true) : Around outer nodes :=
  fun node hnode => ⟨Span.contains_trans ho (h node hnode).1, (h node hnode).2⟩

theorem Around.append {span : Span} {nodes others : List Node} (h : Around span nodes)
    (ho : Around span others) : Around span (nodes ++ others) :=
  List.forall_mem_append.2 ⟨h, ho⟩

mutual

/-- A nested node lies around everything below it, and all of that is nested, too. -/
theorem around_preorder : (node : Node) → node.Nested → Around node.span node.preorder
  | ⟨kind, span, children, flag⟩, h => by
    intro below hbelow
    rcases List.mem_cons.1 hbelow with rfl | hbelow
    · exact ⟨Span.contains_refl _, h⟩
    · exact around_preorderList span children (nested_iff.1 h) below hbelow

/-- The same for several trees next to each other. -/
theorem around_preorderList (span : Span) : (nodes : List Node) → Around span nodes →
    Around span (preorderList nodes)
  | [], _ => List.forall_mem_nil _
  | node :: rest, h => by
    obtain ⟨⟨hnode, hnested⟩, hrest⟩ := List.forall_mem_cons.1 h
    refine Around.append ?_ (around_preorderList span rest hrest)
    exact (around_preorder node hnested).widen hnode

end

/-- All children lie below the span that is merged from theirs. -/
theorem contains_of_foldlM {start span : Span} {nodes : List Node}
    (h : nodes.foldlM (fun span child => span.merge child.span) start = .ok span) :
    span.contains start = true ∧ ∀ node ∈ nodes, span.contains node.span = true := by
  induction nodes generalizing start with
  | nil =>
    cases h
    exact ⟨Span.contains_refl _, List.forall_mem_nil _⟩
  | cons node rest ih =>
    rw [List.foldlM_cons] at h
    cases hmerge : start.merge node.span with
    | error ends =>
      rw [hmerge] at h
      cases h
    | ok merged =>
      rw [hmerge] at h
      obtain ⟨hmerged, hrest⟩ := ih h
      obtain ⟨hstart, hnode⟩ := Span.contains_of_merge hmerge
      refine ⟨Span.contains_trans hmerged hstart, List.forall_mem_cons.2 ⟨?_, hrest⟩⟩
      exact Span.contains_trans hmerged hnode

/-- A node that covers its children lies around them and around where it was before. -/
theorem contains_of_cover {node covered : Node} (h : node.cover = .ok covered) :
    covered.span.contains node.span = true ∧
      ∀ child ∈ node.children, covered.span.contains child.span = true := by
  obtain ⟨span, hspan, rfl⟩ := foldlM_of_cover h
  exact contains_of_foldlM hspan

/-- A node that covers its children is nested if each of these is. -/
theorem nested_of_cover {node covered : Node} (h : node.cover = .ok covered)
    (hchildren : ∀ child ∈ node.children, child.Nested) : covered.Nested := by
  have hcontains := (contains_of_cover h).2
  obtain ⟨span, rfl⟩ := eq_of_cover h
  exact nested_iff.2 fun child hchild => ⟨hcontains child hchild, hchildren child hchild⟩

namespace Nested

variable {node : Node}

theorem children (h : node.Nested) : ∀ child ∈ node.children, child.Nested :=
  fun child hchild => (nested_iff.1 h child hchild).2

/-- Whose the semicolon is makes no difference. -/
theorem withSemicolon (h : node.Nested) (flag : Bool) :
    Node.Nested { node with ownsSemicolon := flag } :=
  nested_iff.2 (show Around node.span node.children from nested_iff.1 h)

end Nested

theorem nested_leaf (kind : NodeKind) (span : Span) : (leaf kind span).Nested :=
  nested_iff.2 (List.forall_mem_nil _)

/-- A node around a single child. -/
theorem nested_single {kind : NodeKind} {span : Span} {child : Node} {flag : Bool}
    (h : span.contains child.span = true) (hchild : child.Nested) :
    Nested ⟨kind, span, [child], flag⟩ :=
  nested_iff.2 (List.forall_mem_singleton.2 ⟨h, hchild⟩)

end Node

/-- What is below the open nodes is nested. The open nodes themselves are not closed yet. -/
structure Stack.Nested (stack : Stack) : Prop where
  root : ∀ child ∈ stack.root.children, child.Nested
  opened : ∀ node ∈ stack.opened, ∀ child ∈ node.children, child.Nested

/-- All nodes on the shelf are nested. -/
def Shelf.Nested (shelf : Shelf) : Prop := ∀ node, some node ∈ shelf.slots → node.Nested

/-- What is below the open nodes is nested, and so is what has been deferred. -/
structure Session.Nested (session : Session) : Prop where
  stack : session.stack.Nested
  shelf : session.shelf.Nested

namespace Stack.Nested

variable {stack : Stack}

/-- The children of the innermost open node are nested, whichever node that is. -/
theorem children (h : stack.Nested) : ∀ child ∈ stack.children, child.Nested := by
  obtain ⟨root, _ | ⟨node, outer⟩⟩ := stack
  · exact h.root
  · exact h.opened node List.mem_cons_self

theorem lastChild (h : stack.Nested) : ∀ child ∈ stack.lastChild?, child.Nested :=
  fun child hchild => h.children child (List.mem_of_getLast? hchild)

/-- A change to the innermost open node matters only through the children that it leaves. -/
theorem modifyCurrent (h : stack.Nested) {change : Node → Node}
    (hc : ∀ child ∈ (change stack.current).children, child.Nested) :
    (stack.modifyCurrent change).Nested := by
  obtain ⟨root, _ | ⟨node, outer⟩⟩ := stack
  · exact ⟨hc, List.forall_mem_nil _⟩
  · refine ⟨h.root, List.forall_mem_cons.2 ⟨hc, fun other hother => ?_⟩⟩
    exact h.opened other (List.mem_cons_of_mem _ hother)

theorem setChildren (h : stack.Nested) {nodes : List Node} (hn : ∀ node ∈ nodes, node.Nested) :
    (stack.setChildren nodes).Nested :=
  h.modifyCurrent hn

/-- A node that is opened has to hold nothing but nested trees. -/
theorem push (h : stack.Nested) {node : Node} (hn : ∀ child ∈ node.children, child.Nested) :
    (stack.push node).Nested :=
  ⟨h.root, List.forall_mem_cons.2 ⟨hn, h.opened⟩⟩

theorem attach (h : stack.Nested) {node : Node} (hn : node.Nested) :
    (stack.attach node).Nested := by
  rw [attach_eq_setChildren]
  exact h.setChildren (List.forall_mem_append.2 ⟨h.children, List.forall_mem_singleton.2 hn⟩)

end Stack.Nested

namespace Shelf

/-- What is put on the shelf has to be nested. -/
theorem Nested.put {shelf : Shelf} (h : shelf.Nested) {node : Node} (hn : node.Nested) :
    (shelf.put node).2.Nested := by
  intro other hother
  rw [Shelf.put] at hother
  split at hother
  · rcases List.mem_or_eq_of_mem_set hother with hother | hother
    · exact h other hother
    · cases hother
      exact hn
  · rcases List.mem_append.1 hother with hother | hother
    · exact h other hother
    · cases List.mem_singleton.1 hother
      exact hn

/-- What is taken back from the shelf is nested, and so is what remains. -/
theorem Nested.take {shelf rest : Shelf} (h : shelf.Nested) {ticket : Ticket} {node : Node}
    (htake : shelf.take ticket = .ok (node, rest)) : node.Nested ∧ rest.Nested := by
  rw [Shelf.take] at htake
  split at htake
  · next hslot =>
    cases htake
    refine ⟨h node (List.mem_of_getElem? hslot), ?_⟩
    intro other hother
    rcases List.mem_or_eq_of_mem_set hother with hother | hother
    · exact h other hother
    · cases hother
  · cases htake

end Shelf

namespace Recover

variable {α β : Type} {scope : Scope}

/-- A run of the computation that succeeds leaves everything nested, if everything was. -/
def Nests (scope : Scope) (action : Recover α) (result : α → Prop) : Prop :=
  ∀ session : Session, session.Nested → ∀ value later,
    action.outcome scope session = (.ok value, later) → later.Nested ∧ result value

/-! ## Steps that leave the open nodes alone -/

/-- A run of the computation that succeeds leaves the open nodes as they are. -/
def Still (scope : Scope) (action : Recover α) : Prop :=
  ∀ session value later, action.outcome scope session = (.ok value, later) →
    later.stack = session.stack

namespace Still

/-- To yield a value leaves the stack alone. -/
theorem pure (value : α) : Still scope (Pure.pure value) := by
  intro session _ _ hrun
  cases hrun
  rfl

/-- Two computations that leave the stack alone do so in sequence. -/
theorem bind {action : Recover α} {next : α → Recover β} (h : Still scope action)
    (hn : ∀ value, Still scope (next value)) : Still scope (action >>= next) := by
  intro session value later hrun
  obtain ⟨found, between, hfirst, hsecond⟩ := ok_of_bind hrun
  exact (hn found between value later hsecond).trans (h session found between hfirst)

/-- A result that is known already leaves the stack alone. -/
theorem orFail (found : Except Failure α) : Still scope (orFail found) := by
  intro session value later hrun
  obtain ⟨-, rfl⟩ := ok_of_orFail hrun
  rfl

/-- A missing token changes the warnings and the journal. -/
theorem settle (found : Except Missing α) (fallback : α) : Still scope (settle found fallback) := by
  obtain ⟨source, info, strict⟩ := scope
  cases found with
  | ok value => exact pure value
  | error missing =>
    refine bind ?_ fun _ => pure fallback
    intro session value later hrun
    cases strict
    · cases hrun
      rfl
    · cases hrun

/-- A symbol changes the table of names only. -/
theorem symbolAt (token : Token) (start : Nat) : Still scope (symbolAt token start) := by
  refine (orFail _).bind fun span => bind ?_ fun _ => pure _
  intro session value later hrun
  cases hrun
  rfl

theorem findWord (word context : String) (start finish : Nat) :
    Still scope (findWord word context start finish) := by
  refine bind ?_ fun text => (settle _ _).bind fun offset => symbolAt _ offset
  intro session value later hrun
  cases hrun
  rfl

end Still

namespace Nests

variable {action : Recover α} {result : α → Prop}

/-! ## Sequencing -/

/-- What is known of the result may be forgotten. -/
theorem mono {weaker : α → Prop} (h : Nests scope action result)
    (hw : ∀ value, result value → weaker value) : Nests scope action weaker := by
  intro session hsession value later hrun
  obtain ⟨hlater, hresult⟩ := h session hsession value later hrun
  exact ⟨hlater, hw value hresult⟩

theorem pure {value : α} (h : result value) : Nests scope (Pure.pure value) result := by
  intro session hsession _ _ hrun
  cases hrun
  exact ⟨hsession, h⟩

/-- A failure has no result. -/
theorem throw {failure : Failure} : Nests scope (throw failure : Recover α) result := by
  intro session _ _ _ hrun
  cases hrun

/-- Of the second computation it has to be known what it makes of results of the first. -/
theorem bind {next : α → Recover β} {last : β → Prop} (h : Nests scope action result)
    (hn : ∀ value, result value → Nests scope (next value) last) :
    Nests scope (action >>= next) last := by
  intro session hsession value later hrun
  obtain ⟨found, between, hfirst, hsecond⟩ := ok_of_bind hrun
  obtain ⟨hbetween, hfound⟩ := h session hsession found between hfirst
  exact hn found hfound between hbetween value later hsecond

theorem andThen {next : Recover β} {last : β → Prop} (h : Nests scope action result)
    (hn : Nests scope next last) : Nests scope (action >>= fun _ => next) last :=
  h.bind fun _ _ => hn

/-- Each step has to leave nested trees, whatever the others leave. -/
theorem forM {γ : Type} {step : γ → Recover Unit} {list : List γ}
    (h : ∀ item ∈ list, Nests scope (step item) fun _ => True) :
    Nests scope (list.forM step) fun _ => True := by
  induction list with
  | nil => exact pure trivial
  | cons item rest ih =>
    obtain ⟨hitem, hrest⟩ := List.forall_mem_cons.1 h
    show Nests scope (step item >>= fun _ => rest.forM step) _
    exact hitem.andThen (ih hrest)

/-- The value is one that is wanted at the start, and every step keeps it so. -/
theorem foldlM {γ : Type} {step : α → γ → Recover α} {list : List γ} {value : α}
    (hv : result value)
    (h : ∀ item ∈ list, ∀ value, result value → Nests scope (step value item) result) :
    Nests scope (list.foldlM step value) result := by
  induction list generalizing value with
  | nil => exact pure hv
  | cons item rest ih =>
    obtain ⟨hitem, hrest⟩ := List.forall_mem_cons.1 h
    rw [List.foldlM_cons]
    exact (hitem value hv).bind fun value hvalue => ih hvalue hrest

/-- Each step yields a value that is wanted. -/
theorem mapM {γ : Type} {step : γ → Recover α} {list : List γ}
    (h : ∀ item ∈ list, Nests scope (step item) result) :
    Nests scope (list.mapM step) fun values => ∀ value ∈ values, result value := by
  induction list with
  | nil => exact pure (List.forall_mem_nil _)
  | cons item rest ih =>
    obtain ⟨hitem, hrest⟩ := List.forall_mem_cons.1 h
    rw [List.mapM_cons]
    refine hitem.bind fun value hvalue => (ih hrest).bind fun values hvalues => pure ?_
    exact List.forall_mem_cons.2 ⟨hvalue, hvalues⟩

/-! ## Steps -/

/-- A step that touches neither the stack nor the shelf. -/
theorem aside (value : Session → α) (next : Session → Session)
    (hrun : ∀ session, action.outcome scope session = (.ok (value session), next session))
    (hstack : ∀ session, (next session).stack = session.stack)
    (hshelf : ∀ session, (next session).shelf = session.shelf)
    (hvalue : ∀ session : Session, session.Nested → result (value session)) :
    Nests scope action result := by
  intro session hsession _ later hlater
  rw [hrun] at hlater
  cases hlater
  exact ⟨⟨hstack session ▸ hsession.stack, hshelf session ▸ hsession.shelf⟩,
    hvalue session hsession⟩

/-- The text is that of the scope. -/
theorem source : Nests scope source fun text => text = scope.source :=
  aside (fun _ => scope.source) id (fun _ => rfl) (fun _ => rfl) (fun _ => rfl) fun _ _ => rfl

/-- The stack of a nested session is nested. -/
theorem getStack : Nests scope getStack Stack.Nested :=
  aside (fun session => session.stack) id (fun _ => rfl) (fun _ => rfl) (fun _ => rfl)
    fun _ hsession => hsession.stack

theorem gapStart : Nests scope gapStart fun _ => True :=
  aside (fun session => session.stack.gapStart) id (fun _ => rfl) (fun _ => rfl) (fun _ => rfl)
    fun _ _ => trivial

theorem exportStatus (name : String) : Nests scope (exportStatus name) fun _ => True :=
  aside (fun _ => .of scope.info name) id (fun _ => rfl) (fun _ => rfl) (fun _ => rfl)
    fun _ _ => trivial

theorem note (entry : Entry) : Nests scope (note entry) fun _ => True :=
  aside (fun _ => ()) (fun session => session.note entry) (fun _ => rfl) (fun _ => rfl)
    (fun _ => rfl) fun _ _ => trivial

theorem intern (text : String) : Nests scope (intern text) fun _ => True :=
  aside (fun _ => ()) (fun session => { session with names := session.names.enter text })
    (fun _ => rfl) (fun _ => rfl) (fun _ => rfl) fun _ _ => trivial

theorem takeSkip : Nests scope takeSkip fun _ => True :=
  aside (fun session => session.skipsName) (fun session => { session with skipsName := false })
    (fun _ => rfl) (fun _ => rfl) (fun _ => rfl) fun _ _ => trivial

theorem skipNextName : Nests scope skipNextName fun _ => True :=
  aside (fun _ => ()) (fun session => { session with skipsName := true })
    (fun _ => rfl) (fun _ => rfl) (fun _ => rfl) fun _ _ => trivial

theorem endsWithSemicolon (finish : Nat) : Nests scope (endsWithSemicolon finish) fun _ => True :=
  aside (fun _ => scope.source.endsWithSemicolon finish) id (fun _ => rfl) (fun _ => rfl)
    (fun _ => rfl) fun _ _ => trivial

theorem terminates (node : Node) (finish : Nat) :
    Nests scope (terminates node finish) fun _ => True :=
  endsWithSemicolon _

/-- What is yielded is the result that was known. -/
theorem orFail (found : Except Failure α) :
    Nests scope (orFail found) fun value => found = .ok value := by
  cases found with
  | ok value => exact pure rfl
  | error failure => exact throw

/-- Every change to the stack that is not refused has to keep it nested. -/
theorem modifyStack {change : Stack → Stack}
    (h : ∀ stack : Stack, stack.Nested → (change stack).Nested) :
    Nests scope (modifyStack change) fun _ => True := by
  intro session hsession _ _ hrun
  cases hrun
  exact ⟨⟨h _ hsession.stack, hsession.shelf⟩, trivial⟩

/-- A change to the children that may be refused. -/
theorem edit {change : Stack → Except Failure Stack}
    (h : ∀ stack made : Stack, stack.Nested → change stack = .ok made → made.Nested) :
    Nests scope (edit change) fun _ => True := by
  intro session hsession _ _ hrun
  obtain ⟨made, hmade, rfl⟩ := ok_of_edit hrun
  exact ⟨⟨h session.stack made hsession.stack hmade, hsession.shelf⟩, trivial⟩

/-- A node that is attached has to be nested. -/
theorem attach {node : Node} (h : node.Nested) : Nests scope (attach node) fun _ => True :=
  modifyStack fun _ hstack => hstack.attach h

theorem attached {action : Recover Node} (h : Nests scope action Node.Nested) :
    Nests scope (do Recover.attach (← action)) fun _ => True :=
  h.bind fun _ hnode => attach hnode

/-- The node that takes the place of the last child has to be nested, that one need not be. -/
theorem replaceLast {node : Node} (h : node.Nested) :
    Nests scope (Recover.modifyStack (·.modifyCurrent (·.modifyLastChild fun _ => node)))
      fun _ => True := by
  refine modifyStack fun stack hstack => hstack.modifyCurrent ?_
  rw [Node.modifyLastChild]
  split
  · refine List.forall_mem_append.2 ⟨fun child hchild => ?_, List.forall_mem_singleton.2 h⟩
    exact hstack.children child (List.dropLast_subset _ hchild)
  · exact hstack.children

/-- To put children in another order leaves them as they are. -/
theorem reorder (permutation : List Nat) : Nests scope (reorder permutation) fun _ => True := by
  rw [Recover.reorder]
  refine edit fun stack made hstack hmade => ?_
  rw [Stack.reorder_eq] at hmade
  split at hmade
  · cases hmade
    refine hstack.setChildren fun child hchild => ?_
    obtain ⟨index, -, hindex⟩ := List.mem_filterMap.1 hchild
    exact hstack.children child (List.mem_of_getElem? hindex)
  · cases hmade

/-- A child is moved under a wrapper that lies around it. -/
theorem nested_wrapChild {stack made : Stack} {index : Nat} {wrapper : Node}
    (hstack : stack.Nested) (hbare : wrapper.children = [])
    (hwrapper : ∀ child ∈ stack.children[index]?, wrapper.span.contains child.span = true)
    (h : stack.wrapChild index wrapper = .ok made) : made.Nested := by
  obtain ⟨child, hchild, rfl⟩ := Stack.of_wrapChild h
  refine hstack.setChildren fun other hother => ?_
  obtain hother | rfl := List.mem_or_eq_of_mem_set hother
  · exact hstack.children other hother
  · rw [Node.addChild, hbare]
    have hnested := hstack.children child (List.mem_of_getElem? hchild)
    exact Node.nested_single (hwrapper child hchild) hnested

/-- The group has the span of the child that it is put around. -/
theorem groupLastChild : Nests scope groupLastChild fun _ => True := by
  rw [Recover.groupLastChild]
  refine edit fun stack made hstack hmade => ?_
  rw [Stack.groupLastChild] at hmade
  cases hlast : stack.lastChild? with
  | none =>
    rw [hlast] at hmade
    cases hmade
  | some child =>
    rw [hlast] at hmade
    refine nested_wrapChild hstack rfl (fun other hother => ?_) hmade
    have hsame : stack.children[stack.children.length - 1]? = some child := by
      rw [← List.getLast?_eq_getElem?]
      exact hlast
    cases Option.some.inj (hsame.symm.trans hother)
    exact Span.contains_refl _

theorem expectChildren (expected : Nat) : Nests scope (expectChildren expected) fun _ => True := by
  refine getStack.bind fun stack _ => ?_
  dsimp only
  split
  · exact throw
  · exact pure trivial

/-! ## Deferred nodes -/

/-- A node that is deferred has to be nested. -/
theorem defer {node : Node} (h : node.Nested) : Nests scope (defer node) fun _ => True := by
  intro session hsession _ _ hrun
  cases hrun
  exact ⟨⟨hsession.stack, hsession.shelf.put h⟩, trivial⟩

/-- What comes back from the shelf is nested. -/
theorem takeDeferred (ticket : Ticket) : Nests scope (takeDeferred ticket) Node.Nested := by
  intro session hsession node later hrun
  have hget : (get : Recover Session).outcome scope session = (.ok session, session) := rfl
  rw [Recover.takeDeferred, outcome_bind_ok hget] at hrun
  obtain ⟨⟨taken, shelf⟩, between, htake, hrest⟩ := ok_of_bind hrun
  obtain ⟨htake, rfl⟩ := ok_of_orFail htake
  cases hrest
  obtain ⟨hnode, hshelf⟩ := hsession.shelf.take htake
  exact ⟨⟨hsession.stack, hshelf⟩, hnode⟩

/-! ## Missing tokens -/

/-- A missing token does not touch what is recovered. -/
theorem report (missing : Missing) : Nests scope (report missing) fun _ => True := by
  obtain ⟨source, info, strict⟩ := scope
  cases strict with
  | true => exact fun session _ _ _ hrun => by cases hrun
  | false =>
    exact aside (fun _ => ())
      (fun session => { session.note (.fallback missing) with
        warnings := session.warnings.push missing })
      (fun _ => rfl) (fun _ => rfl) (fun _ => rfl) fun _ _ => trivial

theorem settle (found : Except Missing α) (fallback : α) :
    Nests scope (settle found fallback) fun _ => True := by
  cases found with
  | ok value => exact pure trivial
  | error missing => exact (report missing).andThen (pure trivial)

/-- What is yielded has been located. -/
theorem settle? (found : Except Missing α) :
    Nests scope (settle? found) fun value => ∀ located ∈ value, found = .ok located := by
  cases found with
  | ok value =>
    refine pure ?_
    rintro located ⟨⟩
    rfl
  | error missing =>
    refine (report missing).andThen (pure ?_)
    rintro located ⟨⟩

/-! ## Spans and symbols -/

/-- A failure of another kind is still a failure. -/
theorem mapError (found : Except Span.Reversed α) :
    Nests scope (Recover.orFail (found.mapError .reversed)) fun value => found = .ok value := by
  cases found with
  | ok value => exact pure rfl
  | error ends => exact throw

/-- A span that is made between two offsets has these ends. -/
theorem spanBetween (start last : Nat) :
    Nests scope (spanBetween start last) fun span => span = ⟨start, last⟩ :=
  (mapError _).mono fun _ hspan => (Span.make_eq_ok_iff.1 hspan).2

/-- A span that is yielded is the one that the spans merge to. -/
theorem mergeSpans (a b : Span) :
    Nests scope (mergeSpans a b) fun span => a.merge b = .ok span :=
  mapError _

/-- The span that covers a span and all nodes of a list. -/
theorem mergeAll (nodes : List Node) (start : Span) :
    Nests scope (nodes.foldlM (fun span child => Recover.mergeSpans span child.span) start)
      fun span => span.contains start = true ∧ ∀ node ∈ nodes, span.contains node.span = true := by
  induction nodes generalizing start with
  | nil => exact pure ⟨Span.contains_refl _, List.forall_mem_nil _⟩
  | cons node rest ih =>
    rw [List.foldlM_cons]
    refine (mergeSpans _ _).bind fun merged hmerged => (ih merged).mono fun span hspan => ?_
    obtain ⟨hstart, hnode⟩ := Span.contains_of_merge hmerged
    exact ⟨Span.contains_trans hspan.1 hstart,
      List.forall_mem_cons.2 ⟨Span.contains_trans hspan.1 hnode, hspan.2⟩⟩

/-- The span of a range has the ends that the range has. -/
theorem rangeSpan (start finish : Nat) :
    Nests scope (rangeSpan start finish) fun span => span = Span.ofBounds start finish := by
  refine source.bind fun text _ => (orFail _).mono fun span hspan => ?_
  rw [Source.rangeSpan] at hspan
  split at hspan
  · cases hspan
    rfl
  · cases hspan

/-- The symbol begins at the offset and is as long as its token. -/
theorem symbolAt (token : Token) (start : Nat) :
    Nests scope (symbolAt token start) fun symbol =>
      symbol.span = ⟨start, start + max token.length 1 - 1⟩ := by
  refine (spanBetween _ _).bind ?_
  rintro _ rfl
  exact (intern _).andThen (pure rfl)

theorem symbolOver (kind : TokenKind) (span : Span) :
    Nests scope (symbolOver kind span) fun _ => True :=
  source.bind fun _ _ => (intern _).andThen (pure trivial)

theorem find (token : Token) (context : String) (start finish : Nat) :
    Nests scope (find token context start finish) fun _ => True :=
  source.bind fun _ _ => (settle _ _).bind fun offset _ => (symbolAt token offset).mono
    fun _ _ => trivial

theorem findLast (token : Token) (context : String) (start finish : Nat) :
    Nests scope (findLast token context start finish) fun _ => True :=
  source.bind fun _ _ => (settle _ _).bind fun offset _ => (symbolAt token offset).mono
    fun _ _ => trivial

theorem findWord (word context : String) (start finish : Nat) :
    Nests scope (findWord word context start finish) fun _ => True :=
  source.bind fun _ _ => (settle _ _).bind fun offset _ => (symbolAt _ offset).mono
    fun _ _ => trivial

/-- A keyword that is found stands in front of the end of the window. -/
theorem findLastWord? (word context : String) (start finish : Nat) :
    Nests scope (findLastWord? word context start finish) fun found =>
      ∀ symbol ∈ found, symbol.span.start < finish := by
  refine source.bind fun text _ => (settle? _).bind fun found hfound => ?_
  cases found with
  | none =>
    refine pure ?_
    rintro symbol ⟨⟩
  | some offset =>
    refine (symbolAt _ _).bind fun symbol hsymbol => pure ?_
    rintro _ ⟨⟩
    rw [hsymbol]
    exact (Source.findLastWord_bounds (Source.locateLastWord_eq_ok_iff.1 (hfound offset rfl))).2

theorem findAtOrAfter (token : Token) (context : String) (offset finish : Nat) :
    Nests scope (findAtOrAfter token context offset finish) fun _ => True := by
  refine source.bind fun text _ => ?_
  split
  · exact (symbolAt token offset).mono fun _ _ => trivial
  · exact find token context offset finish

theorem findEndingAt (token : Token) (context : String) (start finish : Nat) :
    Nests scope (findEndingAt token context start finish) fun _ => True := by
  refine source.bind fun text _ => ?_
  split
  · exact (symbolAt token _).mono fun _ _ => trivial
  · exact findLast token context start finish

/-- A name is a leaf with the span of its range. -/
theorem identifier (start finish : Nat) (name : String) :
    Nests scope (identifier start finish name) fun node =>
      node.Nested ∧ node.span = Span.ofBounds start finish := by
  refine (rangeSpan start finish).bind fun span hspan => (intern name).andThen (pure ?_)
  exact ⟨Node.nested_leaf _ _, hspan⟩

/-! ## Open nodes -/

/-- A node is made to cover its children when it is closed. -/
theorem within {node : Node} {body : Recover Unit}
    (hn : ∀ child ∈ node.children, child.Nested) (h : Nests scope body fun _ => True) :
    Nests scope (within node body) Node.Nested := by
  intro session hsession made last hrun
  obtain ⟨later, closed, hbody, hopened, hroot, hshelf, -, -, hcover⟩ := ok_of_within hrun
  have hopening : (session.opening node).Nested := ⟨hsession.stack.push hn, hsession.shelf⟩
  obtain ⟨hlater, -⟩ := h _ hopening () later hbody
  have hall := hlater.stack.opened
  rw [hopened] at hall
  obtain ⟨hclosed, houter⟩ := List.forall_mem_cons.1 hall
  refine ⟨⟨⟨?_, houter⟩, hshelf ▸ hlater.shelf⟩, Node.nested_of_cover hcover hclosed⟩
  rw [hroot]
  exact hlater.stack.root

/-- A node that is opened has to hold nested trees, and what its body leaves joins them. -/
theorem enter {node : Node} {body : Recover Unit} (hn : ∀ child ∈ node.children, child.Nested)
    (h : Nests scope body fun _ => True) : Nests scope (enter node body) fun _ => True :=
  attached (within hn h)

/-- A node that has no children yet. -/
theorem withinBare {kind : NodeKind} {span : Span} {body : Recover Unit}
    (h : Nests scope body fun _ => True) :
    Nests scope (Recover.within (.leaf kind span) body) Node.Nested :=
  within (List.forall_mem_nil _) h

/-- As for `withinBare`, with the node attached. -/
theorem enterBare {kind : NodeKind} {span : Span} {body : Recover Unit}
    (h : Nests scope body fun _ => True) :
    Nests scope (Recover.enter (.leaf kind span) body) fun _ => True :=
  enter (List.forall_mem_nil _) h

end Nests

end Recover

end Concretion
