import Concretion.Proofs.Growth
import Concretion.Proofs.Inversion
import Concretion.Proofs.Shift.Texts

/-!
# Computations that move with the text

Two computations side by side, of which one reads a text and the other one reads it behind blank
space. Where the first comes to a result without missing a token, the second comes to the same
result further to the right.

- `Session.Moved`: the session of one run is that of the other one, moved.
- `Tracks`: what the second computation comes to is related to what the first has come to.
- `Shifts`, `Follows`: it is obtained by moving, or nothing needs to be known of it.
- `Shifts.within`, `Shifts.find`, `Tracks.gapStart` and so on: the steps of a recovery.
-/

namespace Concretion

/-- The nodes of a session are those of another one, moved to the right. The root begins with the
text in both of them. -/
structure Session.Moved (count : Nat) (session moved : Session) : Prop where
  stack : moved.stack = session.stack.shift count
  shelf : moved.shelf = session.shelf.shift count
  skipsName : moved.skipsName = session.skipsName
  warnings : moved.warnings = session.warnings
  root : session.stack.root.start = 0

namespace Recover

variable {α β γ δ : Type}

/-- Where the first computation comes to a result in the text alone, the second comes to a related
one in the text behind blank space, and the sessions stay alike. No token may be missed. -/
def Tracks (indent : Indent) (action : Recover α) (moved : Recover β) (related : α → β → Prop) :
    Prop :=
  ∀ (info : Option ModuleInfo) (session other later : Session) (value : α),
    session.Moved indent.width other →
    action.outcome ⟨indent.source, info, true⟩ session = (.ok value, later) →
    ∃ value' later', moved.outcome ⟨indent.moved, info, true⟩ other = (.ok value', later') ∧
      later.Moved indent.width later' ∧ related value value'

/-- What the second computation comes to is a function of what the first has come to. -/
abbrev Shifts (indent : Indent) (action : Recover α) (moved : Recover β) (change : α → β) : Prop :=
  Tracks indent action moved fun value value' => value' = change value

/-- Nothing needs to be known of what the computations come to. -/
abbrev Follows (indent : Indent) (action : Recover α) (moved : Recover β) : Prop :=
  Tracks indent action moved fun _ _ => True

variable {indent : Indent} {action : Recover α} {moved : Recover β} {related : α → β → Prop}

/-! ## Sequencing -/

namespace Tracks

/-- Values that are only returned may be related in any way. -/
theorem pure {value : α} {value' : β} (h : related value value') :
    Tracks indent (Pure.pure value) (Pure.pure value') related := by
  intro info session other later result hs hrun
  rw [outcome_pure] at hrun
  cases hrun
  exact ⟨value', other, rfl, hs, h⟩

/-- A computation that fails has nothing to be followed. -/
theorem throw {failure : Failure} : Tracks indent (throw failure : Recover α) moved related := by
  intro info session other later value hs hrun
  cases hrun

/-- What the first part comes to is handed on, moved, to what follows. -/
theorem bind {next : α → Recover γ} {next' : β → Recover δ} {after : γ → δ → Prop}
    (h : Tracks indent action moved related)
    (hn : ∀ value value', related value value' → Tracks indent (next value) (next' value') after) :
    Tracks indent (action >>= next) (moved >>= next') after := by
  intro info session other last result hs hrun
  obtain ⟨value, later, hrun, hnext⟩ := ok_of_bind hrun
  obtain ⟨value', later', hrun', hlater, hvalue⟩ := h info session other later value hs hrun
  obtain ⟨result', last', hnext', hlast, hresult⟩ :=
    hn value value' hvalue info later later' last result hlater hnext
  exact ⟨result', last', (outcome_bind_ok hrun').trans hnext', hlast, hresult⟩

/-- What the first part comes to may be dropped. -/
theorem andThen {next : Recover γ} {next' : Recover δ} {after : γ → δ → Prop}
    (h : Tracks indent action moved related) (hn : Tracks indent next next' after) :
    Tracks indent (action >>= fun _ => next) (moved >>= fun _ => next') after :=
  h.bind fun _ _ _ => hn

/-- A choice between computations that both runs make in the same way. -/
theorem ite {first second : Prop} [Decidable first] [Decidable second] {other : Recover α}
    {other' : Recover β} (hsame : second ↔ first) (h : first → Tracks indent action moved related)
    (hother : ¬ first → Tracks indent other other' related) :
    Tracks indent (if first then action else other) (if second then moved else other') related := by
  by_cases hfirst : first
  · rw [if_pos hfirst, if_pos (hsame.2 hfirst)]
    exact h hfirst
  · rw [if_neg hfirst, if_neg fun hsecond => hfirst (hsame.1 hsecond)]
    exact hother hfirst

end Tracks

namespace Shifts

variable {change : α → β}

/-- The second computation gets the changed value. -/
theorem bind {next : α → Recover γ} {next' : β → Recover δ} {after : γ → δ → Prop}
    (h : Shifts indent action moved change)
    (hn : ∀ value, Tracks indent (next value) (next' (change value)) after) :
    Tracks indent (action >>= next) (moved >>= next') after := by
  refine Tracks.bind h fun value value' hvalue => ?_
  subst hvalue
  exact hn value

end Shifts

/-! ## Loops -/

namespace Follows

/-- Loops over lists of the same length, of which each step follows the one of the other loop. -/
theorem forM {step : γ → Recover Unit} {step' : δ → Recover Unit} {list : List γ} {list' : List δ}
    (h : List.Forall₂ (fun item item' => Follows indent (step item) (step' item')) list list') :
    Follows indent (list.forM step) (list'.forM step') := by
  induction h with
  | nil => exact .pure trivial
  | cons hitem _ ih => exact Tracks.andThen hitem ih

/-- Loops over a list and the same list, moved. -/
theorem forM_map {step : γ → Recover Unit} {step' : δ → Recover Unit} {change : γ → δ}
    (list : List γ) (h : ∀ item, Follows indent (step item) (step' (change item))) :
    Follows indent (list.forM step) ((list.map change).forM step') := by
  induction list with
  | nil => exact .pure trivial
  | cons item rest ih => exact (h item).andThen ih

end Follows

/-- A fold moves if each of its steps does. -/
theorem Shifts.foldlM {step : α → γ → Recover α} {step' : β → δ → Recover β} {change : α → β}
    {each : γ → δ} (h : ∀ value item,
      Shifts indent (step value item) (step' (change value) (each item)) change)
    (list : List γ) (value : α) :
    Shifts indent (list.foldlM step value) ((list.map each).foldlM step' (change value))
      change := by
  induction list generalizing value with
  | nil => exact .pure rfl
  | cons item rest ih =>
    rw [List.foldlM_cons, List.map_cons, List.foldlM_cons]
    exact (h value item).bind ih

/-- So does a computation for each item of a list. -/
theorem Shifts.mapM {step : γ → Recover α} {step' : δ → Recover β} {change : α → β} {each : γ → δ}
    (h : ∀ item, Shifts indent (step item) (step' (each item)) change) (list : List γ) :
    Shifts indent (list.mapM step) ((list.map each).mapM step') (List.map change) := by
  induction list with
  | nil =>
    rw [List.map_nil, List.mapM_nil, List.mapM_nil]
    exact .pure rfl
  | cons item rest ih =>
    rw [List.map_cons, List.mapM_cons, List.mapM_cons]
    exact (h item).bind fun value => ih.bind fun values => .pure rfl

/-! ## Steps that do not read the text -/

namespace Tracks

/-- What is done with the text. -/
theorem source {next : Source → Recover α} {next' : Source → Recover β}
    (h : Tracks indent (next indent.source) (next' indent.moved) related) :
    Tracks indent (Recover.source >>= next) (Recover.source >>= next') related := by
  intro info session other later value hs hrun
  rw [outcome_bind_ok (outcome_source _ _)] at hrun ⊢
  exact h info session other later value hs hrun

/-- A step that cannot fail and does not look at the text. -/
theorem silent {action : Recover α} {moved : Recover β} (value : Option ModuleInfo → Session → α)
    (value' : Option ModuleInfo → Session → β) (next next' : Session → Session)
    (hrun : ∀ scope session, action.outcome scope session =
      (.ok (value scope.info session), next session))
    (hrun' : ∀ scope session, moved.outcome scope session =
      (.ok (value' scope.info session), next' session))
    (hnext : ∀ session other, session.Moved indent.width other →
      (next session).Moved indent.width (next' other))
    (hvalue : ∀ info session other, session.Moved indent.width other →
      related (value info session) (value' info other)) :
    Tracks indent action moved related := by
  intro info session other later result hs h
  rw [hrun] at h
  cases h
  exact ⟨_, _, hrun' _ _, hnext session other hs, hvalue info session other hs⟩

/-- Where the gap in front of the next child begins. In front of the first child of the root it
begins with the text. -/
theorem gapStart : Tracks indent gapStart gapStart indent.Low := by
  refine silent (fun _ session => session.stack.gapStart) (fun _ session => session.stack.gapStart)
    id id (fun _ _ => rfl) (fun _ _ => rfl) (fun _ _ hs => hs) fun _ session other hs => ?_
  obtain ⟨hstack, -, -, -, hroot⟩ := hs
  rw [hstack, Stack.gapStart, Stack.gapStart, Stack.lastChild?_shift]
  cases session.stack.lastChild? with
  | some child =>
    show indent.Low (if child.isPlaceholder then child.last else child.last + 1)
      (if (child.shift _).isPlaceholder then (child.shift _).last else (child.shift _).last + 1)
    rw [child.isPlaceholder_shift, child.last_shift]
    split
    · exact .inl rfl
    · exact .inl rfl
  | none =>
    obtain ⟨⟨root, _ | ⟨node, outer⟩⟩, _, _, _, _, _⟩ := session
    · exact .inr ⟨hroot, hroot⟩
    · exact .inl (node.start_shift _)

end Tracks

namespace Shifts

/-- The stack that is read has been moved. -/
theorem getStack : Shifts indent getStack getStack (Stack.shift indent.width) :=
  Tracks.silent (fun _ session => session.stack) (fun _ session => session.stack) id id
    (fun _ _ => rfl) (fun _ _ => rfl) (fun _ _ hs => hs) fun _ _ _ hs => hs.stack

/-- Whether a name is exported is not said by the text. -/
theorem exportStatus (name : String) :
    Shifts indent (exportStatus name) (exportStatus name) fun status => status :=
  Tracks.silent (fun info _ => .of info name) (fun info _ => .of info name) id id
    (fun _ _ => rfl) (fun _ _ => rfl) (fun _ _ hs => hs) fun _ _ _ _ => rfl

/-- Both runs skip the next name, or neither does. -/
theorem takeSkip : Shifts indent takeSkip takeSkip fun skips => skips :=
  Tracks.silent (fun _ session => session.skipsName) (fun _ session => session.skipsName)
    (fun session => { session with skipsName := false })
    (fun session => { session with skipsName := false }) (fun _ _ => rfl) (fun _ _ => rfl)
    (fun _ _ hs => ⟨hs.stack, hs.shelf, rfl, hs.warnings, hs.root⟩) fun _ _ _ hs => hs.skipsName

/-- What may fail has been computed from the text, where the other run does not fail. -/
theorem orFail {found : Except Failure α} {found' : Except Failure β} {change : α → β}
    (h : ∀ value, found = .ok value → found' = .ok (change value)) :
    Shifts indent (orFail found) (orFail found') change := by
  cases found with
  | ok value =>
    rw [h value rfl]
    exact .pure rfl
  | error failure => exact .throw

/-- No token may be missed, so the recovery goes on with what has been located. -/
theorem settle {found : Except Missing α} {found' : Except Missing β} {fallback : α}
    {fallback' : β} {change : α → β}
    (h : ∀ value, found = .ok value → found' = .ok (change value)) :
    Shifts indent (settle found fallback) (settle found' fallback') change := by
  cases found with
  | ok value =>
    rw [h value rfl]
    exact .pure rfl
  | error missing =>
    intro info session other later value hs hrun
    cases hrun

/-- Nothing is missed in the first run, so nothing is in the second. -/
theorem settle? {found : Except Missing α} {found' : Except Missing β} {change : α → β}
    (h : ∀ value, found = .ok value → found' = .ok (change value)) :
    Shifts indent (settle? found) (settle? found') (Option.map change) := by
  cases found with
  | ok value =>
    rw [h value rfl]
    exact .pure rfl
  | error missing =>
    intro info session other later value hs hrun
    cases hrun

end Shifts

namespace Follows

/-- A step that changes neither nodes nor warnings. -/
theorem aside {action moved : Recover Unit} (next next' : Session → Session)
    (hrun : ∀ scope session, action.outcome scope session = (.ok (), next session))
    (hrun' : ∀ scope session, moved.outcome scope session = (.ok (), next' session))
    (hnext : ∀ session other, session.Moved indent.width other →
      (next session).Moved indent.width (next' other)) : Follows indent action moved :=
  Tracks.silent (fun _ _ => ()) (fun _ _ => ()) next next' hrun hrun' hnext fun _ _ _ _ => trivial

/-- Notes may be of anything. -/
theorem note (entry entry' : Entry) : Follows indent (note entry) (note entry') :=
  aside (·.note entry) (·.note entry') (fun _ _ => rfl) (fun _ _ => rfl)
    fun _ _ hs => ⟨hs.stack, hs.shelf, hs.skipsName, hs.warnings, hs.root⟩

/-- The mark that the next name is to be skipped is set in both runs. -/
theorem skipNextName : Follows indent skipNextName skipNextName :=
  aside (fun session => { session with skipsName := true })
    (fun session => { session with skipsName := true }) (fun _ _ => rfl) (fun _ _ => rfl)
    fun _ _ hs => ⟨hs.stack, hs.shelf, rfl, hs.warnings, hs.root⟩

/-- The two runs may put different texts in their tables of names, which need not be alike. -/
theorem intern (text text' : String) : Follows indent (intern text) (intern text') :=
  aside (fun session => { session with names := session.names.enter text })
    (fun session => { session with names := session.names.enter text' }) (fun _ _ => rfl)
    (fun _ _ => rfl) fun _ _ hs => ⟨hs.stack, hs.shelf, hs.skipsName, hs.warnings, hs.root⟩

/-! ## Changes to the children -/

/-- The innermost open nodes are given other children. -/
theorem setChildren {change change' : Stack → Stack} (h : ∀ stack, ∃ children,
    change stack = stack.setChildren children ∧ change' (stack.shift indent.width) =
      (stack.shift indent.width).setChildren (children.map (Node.shift indent.width))) :
    Follows indent (modifyStack change) (modifyStack change') := by
  refine aside (fun session => { session with stack := change session.stack })
    (fun session => { session with stack := change' session.stack }) (fun _ _ => rfl)
    (fun _ _ => rfl) fun session other hs => ?_
  obtain ⟨children, hchange, hchange'⟩ := h session.stack
  refine ⟨?_, hs.shelf, hs.skipsName, hs.warnings, ?_⟩
  · show change' other.stack = (change session.stack).shift indent.width
    rw [hs.stack, hchange', hchange, Stack.setChildren_shift]
  · show (change session.stack).root.start = 0
    rw [hchange, Stack.root_start_setChildren, hs.root]

/-- The node that is attached has been moved. -/
theorem attach (node : Node) :
    Follows indent (attach node) (attach (node.shift indent.width)) := by
  refine setChildren fun stack => ⟨_, stack.attach_eq_setChildren node, ?_⟩
  rw [Stack.attach_eq_setChildren, Stack.children_shift, List.map_append, List.map_singleton]

/-- The last child is replaced in both runs. -/
theorem replaceLast (node : Node) :
    Follows indent (modifyStack (·.modifyCurrent (·.modifyLastChild fun _ => node)))
      (modifyStack (·.modifyCurrent (·.modifyLastChild fun _ => node.shift indent.width))) := by
  refine setChildren fun stack => ?_
  cases hlast : stack.lastChild? with
  | some child =>
    have hlast' : (stack.shift indent.width).lastChild? = some (child.shift indent.width) := by
      rw [Stack.lastChild?_shift, hlast]
      rfl
    refine ⟨_, Stack.replaceLast_eq_setChildren node hlast, ?_⟩
    rw [Stack.replaceLast_eq_setChildren _ hlast', Stack.children_shift, List.map_append,
      List.map_dropLast, List.map_singleton]
  | none =>
    -- without children nothing changes
    have hsame : ∀ (stack : Stack) (made : Node), stack.lastChild? = none →
        stack.modifyCurrent (·.modifyLastChild fun _ => made) =
          stack.setChildren stack.children := by
      rintro ⟨root, _ | ⟨inner, outer⟩⟩ made hnone <;>
        simp only [Stack.lastChild?, Stack.current, Node.lastChild?] at hnone <;>
        simp only [Stack.modifyCurrent, Node.modifyLastChild, hnone] <;>
        exact (Stack.setChildren_children _).symm
    have hlast' : (stack.shift indent.width).lastChild? = none := by
      rw [Stack.lastChild?_shift, hlast]
      rfl
    refine ⟨stack.children, hsame stack node hlast, ?_⟩
    rw [hsame _ _ hlast', Stack.children_shift]

/-- A change to the children of the innermost open node that may be refused. -/
theorem edit {change change' : Stack → Except Failure Stack}
    (h : ∀ before after, change before = .ok after → ∃ children,
      after = before.setChildren children ∧ change' (before.shift indent.width) =
        .ok ((before.shift indent.width).setChildren (children.map (Node.shift indent.width)))) :
    Follows indent (edit change) (edit change') := by
  intro info session other later value hs hrun
  obtain ⟨after, hchange, rfl⟩ := ok_of_edit hrun
  obtain ⟨children, rfl, hchange'⟩ := h _ _ hchange
  refine ⟨(), { other with stack := (session.stack.setChildren children).shift indent.width }, ?_,
    ⟨rfl, hs.shelf, hs.skipsName, hs.warnings, ?_⟩, trivial⟩
  · rw [outcome_edit, hs.stack, hchange', Stack.setChildren_shift]
  · exact (Stack.root_start_setChildren _ _).trans hs.root

/-- Children are put in another order in both runs. -/
theorem reorder (permutation : List Nat) :
    Follows indent (reorder permutation) (reorder permutation) := by
  rw [Recover.reorder]
  refine edit fun before after h => ?_
  rw [Stack.reorder_eq] at h ⊢
  rw [Stack.children_shift, List.length_map]
  split at h
  · next hvalid =>
    cases h
    refine ⟨_, rfl, ?_⟩
    rw [if_pos hvalid, List.map_filterMap]
    simp only [List.getElem?_map]
  · cases h

/-- The last child is put in a group in both runs. -/
theorem groupLastChild : Follows indent groupLastChild groupLastChild := by
  rw [Recover.groupLastChild]
  refine edit fun before after h => ?_
  cases hlast : before.lastChild? with
  | none =>
    rw [Stack.groupLastChild, hlast] at h
    cases h
  | some child =>
    have hlast' : (before.shift indent.width).lastChild? = some (child.shift indent.width) := by
      rw [Stack.lastChild?_shift, hlast]
      rfl
    have hgroup : Node.leaf .group (child.shift indent.width).span =
        (Node.leaf .group child.span).shift indent.width := by
      rw [child.span_shift]
      rfl
    simp only [Stack.groupLastChild, hlast] at h
    simp only [Stack.groupLastChild, hlast', hgroup, Stack.childCount_shift]
    exact before.wrapChild_shift _ h

/-- A child is put under a wrapper, which has been moved. -/
theorem wrapChild (index : Nat) (wrapper : Node) :
    Follows indent (wrapChild index wrapper) (wrapChild index (wrapper.shift indent.width)) := by
  rw [Recover.wrapChild, Recover.wrapChild]
  exact edit fun before _ h => before.wrapChild_shift _ h

/-- Both runs count the same number of children. -/
theorem expectChildren (expected : Nat) :
    Follows indent (expectChildren expected) (expectChildren expected) := by
  refine Shifts.getStack.bind fun stack => ?_
  refine Tracks.ite (by rw [stack.childCount_shift]) (fun _ => .throw) fun _ => .pure trivial

end Follows

/-! ## Deferred nodes -/

/-- Nodes are deferred under the same tickets. -/
theorem Shifts.defer (node : Node) :
    Shifts indent (defer node) (defer (node.shift indent.width)) fun ticket => ticket := by
  refine Tracks.silent (fun _ session => (session.shelf.put node).1)
    (fun _ session => (session.shelf.put (node.shift indent.width)).1)
    (fun session => session.deferred node)
    (fun session => session.deferred (node.shift indent.width)) (fun _ _ => rfl) (fun _ _ => rfl)
    (fun session other hs => ?_) fun _ session other hs => ?_
  · refine ⟨hs.stack, ?_, hs.skipsName, hs.warnings, hs.root⟩
    show (other.shelf.put _).2 = (session.shelf.put node).2.shift _
    rw [hs.shelf, Shelf.put_shift]
  · rw [hs.shelf, Shelf.put_shift]

/-- A ticket gives back the moved node. -/
theorem Shifts.takeDeferred (ticket : Ticket) :
    Shifts indent (takeDeferred ticket) (takeDeferred ticket) (Node.shift indent.width) := by
  intro info session other later node hs hrun
  have hget : ∀ scope (session : Session),
      (get : Recover Session).outcome scope session = (.ok session, session) := fun _ _ => rfl
  rw [Recover.takeDeferred, outcome_bind_ok (hget _ _)] at hrun ⊢
  obtain ⟨taken, middle, htake, hrest⟩ := ok_of_bind hrun
  obtain ⟨hshelf, rfl⟩ := ok_of_orFail htake
  cases hrest
  refine ⟨_, { other with shelf := taken.2.shift indent.width }, ?_,
    ⟨hs.stack, rfl, hs.skipsName, hs.warnings, hs.root⟩, rfl⟩
  rw [hs.shelf, Shelf.take_shift _ _ hshelf]
  rfl

/-! ## Spans -/

namespace Shifts

/-- Spans move with their bounds. -/
theorem spanBetween (start last : Nat) :
    Shifts indent (spanBetween start last)
      (spanBetween (indent.width + start) (indent.width + last))
      (Span.shift indent.width) := by
  refine orFail fun span hspan => ?_
  cases hmade : Span.make start last with
  | error ends =>
    rw [hmade] at hspan
    cases hspan
  | ok made =>
    rw [hmade] at hspan
    cases hspan
    obtain ⟨hle, rfl⟩ := Span.make_eq_ok_iff.1 hmade
    rw [Span.make_of_le (Nat.add_le_add_left hle _)]
    rfl

/-- The span around two moved spans is the moved one. -/
theorem mergeSpans (a b : Span) :
    Shifts indent (mergeSpans a b) (mergeSpans (a.shift indent.width) (b.shift indent.width))
      (Span.shift indent.width) := by
  refine orFail fun span hspan => ?_
  cases hmerged : a.merge b with
  | error ends =>
    rw [hmerged] at hspan
    cases hspan
  | ok merged =>
    rw [hmerged] at hspan
    cases hspan
    rw [Span.merge_shift hmerged]
    rfl

/-- The span of a range of the text moves with it. -/
theorem rangeSpan (start finish : Nat) :
    Shifts indent (rangeSpan start finish)
      (rangeSpan (indent.width + start) (indent.width + finish)) (Span.shift indent.width) :=
  Tracks.source (orFail fun _ hspan => indent.rangeSpan_moved hspan)

/-- Whether a semicolon ends a statement is the same in both texts. -/
theorem endsWithSemicolon (finish : Nat) :
    Shifts indent (endsWithSemicolon finish) (endsWithSemicolon (indent.width + finish))
      fun flag => flag :=
  Tracks.source (.pure (indent.endsWithSemicolon_moved finish))

/-- So it is for a node, which may reach further. -/
theorem terminates (node : Node) (finish : Nat) :
    Shifts indent (terminates node finish)
      (terminates (node.shift indent.width) (indent.width + finish)) fun flag => flag := by
  have hfinish : max (indent.width + finish) ((node.shift indent.width).last + 1) =
      indent.width + max finish (node.last + 1) := by
    rw [node.last_shift, Nat.add_assoc, Nat.add_max_add_left]
  rw [Recover.terminates, Recover.terminates, hfinish]
  exact endsWithSemicolon _

/-! ## Symbols -/

/-- A symbol moves with the place it is put at. -/
theorem symbolAt (token : Token) (start : Nat) :
    Shifts indent (symbolAt token start) (symbolAt token (indent.width + start))
      (Symbol.shift indent.width) := by
  have hlast : indent.width + start + max token.length 1 - 1 =
      indent.width + (start + max token.length 1 - 1) := by omega
  rw [Recover.symbolAt, Recover.symbolAt, hlast]
  exact (spanBetween _ _).bind fun span => (Follows.intern _ _).andThen (.pure rfl)

/-- A symbol over a span keeps the text that it covers. -/
theorem symbolOver (kind : TokenKind) (span : Span) :
    Shifts indent (symbolOver kind span) (symbolOver kind (span.shift indent.width))
      (Symbol.shift indent.width) := by
  refine Tracks.source ?_
  have hslice : indent.moved.slice (span.shift indent.width).start
      ((span.shift indent.width).last + 1) = indent.source.slice span.start (span.last + 1) :=
    indent.slice_moved span.start (span.last + 1)
  rw [hslice]
  exact (Follows.intern _ _).andThen (.pure rfl)

/-- The first match of a token moves. -/
theorem find (token : Token) (context : String) (start finish : Nat) :
    Shifts indent (find token context start finish)
      (find token context (indent.width + start) (indent.width + finish))
      (Symbol.shift indent.width) :=
  Tracks.source ((settle fun _ => Indent.locate_moved).bind fun offset => symbolAt token offset)

/-- The last match of a token moves. -/
theorem findLast (token : Token) (context : String) (start finish : Nat) :
    Shifts indent (findLast token context start finish)
      (findLast token context (indent.width + start) (indent.width + finish))
      (Symbol.shift indent.width) :=
  Tracks.source ((settle fun _ => Indent.locateLast_moved).bind fun offset => symbolAt token offset)

/-- The first match of a word moves. -/
theorem findWord (word context : String) (start finish : Nat) :
    Shifts indent (findWord word context start finish)
      (findWord word context (indent.width + start) (indent.width + finish))
      (Symbol.shift indent.width) :=
  Tracks.source ((settle fun _ => Indent.locateWord_moved).bind fun offset => symbolAt _ offset)

/-- A keyword in front of something, where the window may begin with the text. -/
theorem findLastWord? {word : String} (hword : Text.isSolid word = true) (context : String)
    {start start' : Nat} (hlow : indent.Low start start') (finish : Nat) :
    Shifts indent (findLastWord? word context start finish)
      (findLastWord? word context start' (indent.width + finish))
      (Option.map (Symbol.shift indent.width)) := by
  refine Tracks.source ?_
  refine (settle? fun _ => Indent.locateLastWord_low hlow hword).bind fun found => ?_
  cases found with
  | none => exact .pure rfl
  | some offset => exact (symbolAt _ offset).bind fun symbol => .pure rfl

/-- The token stands at the offset in both texts or in neither. -/
theorem findAtOrAfter (token : Token) (context : String) (offset finish : Nat) :
    Shifts indent (findAtOrAfter token context offset finish)
      (findAtOrAfter token context (indent.width + offset) (indent.width + finish))
      (Symbol.shift indent.width) := by
  refine Tracks.source (.ite ?_ (fun _ => symbolAt token offset) fun _ => find token context _ _)
  rw [Nat.add_assoc, indent.slice_moved]

/-- The token does not begin in front of the window, so it does not reach into the blank space. -/
theorem findEndingAt (token : Token) (context : String) (start finish : Nat) :
    Shifts indent (findEndingAt token context start finish)
      (findEndingAt token context (indent.width + start) (indent.width + finish))
      (Symbol.shift indent.width) := by
  refine Tracks.source ?_
  by_cases hfits : token.length ≤ finish
  · have hoffset : indent.width + finish - token.length =
        indent.width + (finish - token.length) := by omega
    have hfits' : token.length ≤ indent.width + finish := hfits.trans (Nat.le_add_left _ _)
    rw [hoffset, decide_eq_true hfits, decide_eq_true hfits', indent.slice_moved]
    refine .ite ?_ (fun _ => symbolAt token _) fun _ => findLast token context _ _
    simp only [Nat.add_le_add_iff_left]
  · have hnone : ¬ indent.width + start ≤ indent.width + finish - token.length ∨
        ¬ token.length ≤ indent.width + finish := by omega
    have hmoved : (token.length ≤ indent.width + finish &&
        indent.width + start ≤ indent.width + finish - token.length) = false := by
      rcases hnone with hnone | hnone
      · rw [decide_eq_false hnone, Bool.and_false]
      · rw [decide_eq_false hnone, Bool.false_and]
    rw [hmoved, decide_eq_false hfits]
    exact findLast token context _ _

/-! ## Names -/

/-- An identifier moves with its range. -/
theorem identifier (start finish : Nat) (name : String) :
    Shifts indent (identifier start finish name)
      (identifier (indent.width + start) (indent.width + finish) name)
      (Node.shift indent.width) :=
  (rangeSpan start finish).bind fun _ => (Follows.intern _ _).andThen (.pure rfl)

end Shifts

/-! ## Open nodes -/

/-- Closing a node hands it out and leaves the outer nodes open. -/
theorem outcome_closeNode {session : Session} {node : Node} {outer : List Node} (scope : Scope)
    (h : session.stack.opened = node :: outer) : closeNode.outcome scope session =
      (.ok node, session.closing ⟨session.stack.root, outer⟩ node.kind) := by
  obtain ⟨⟨root, opened⟩, names, shelf, skipsName, warnings, journal⟩ := session
  cases h
  rfl

/-- A node that is opened, filled and closed. -/
theorem Shifts.within {body body' : Recover Unit} (node : Node) (h : Follows indent body body') :
    Shifts indent (within node body) (within (node.shift indent.width) body')
      (Node.shift indent.width) := by
  intro info session other last covered hs hrun
  obtain ⟨later, closed, hbody, hopened, hroot, hshelf, hwarnings, hskips, hcover⟩ :=
    ok_of_within hrun
  have hopening : (session.opening node).Moved indent.width
      (other.opening (node.shift indent.width)) := by
    refine ⟨?_, hs.shelf, hs.skipsName, hs.warnings, hs.root⟩
    show other.stack.push _ = (session.stack.push node).shift _
    rw [hs.stack]
    rfl
  obtain ⟨_, later', hbody', hlater, -⟩ := h info _ _ later () hopening hbody
  -- The nodes that are open have moved one by one, so the innermost of them is the closed node,
  -- moved.
  have hopened' : later'.stack.opened =
      closed.shift indent.width :: last.stack.opened.map (Node.shift indent.width) := by
    rw [hlater.stack, Stack.shift, hopened]
    rfl
  refine ⟨_, later'.closing ⟨later'.stack.root, last.stack.opened.map (Node.shift indent.width)⟩
    (closed.shift indent.width).kind, ?_, ⟨?_, ?_, ?_, ?_, ?_⟩, rfl⟩
  · have hopen : (openNode (node.shift indent.width)).outcome ⟨indent.moved, info, true⟩ other =
        (.ok (), other.opening (node.shift indent.width)) := rfl
    rw [Recover.within, outcome_bind_ok hopen, outcome_bind_ok (outcome_attempt _ _ _), hbody',
      outcome_bind_ok (outcome_closeNode _ hopened'), Node.cover_shift _ hcover]
    rfl
  · show (⟨later'.stack.root, _⟩ : Stack) = last.stack.shift _
    rw [hlater.stack, Stack.shift, Stack.shift, hroot]
  · exact hlater.shelf.trans (hshelf ▸ rfl)
  · exact hlater.skipsName.trans hskips.symm
  · exact hlater.warnings.trans hwarnings.symm
  · rw [hroot, hlater.root]

/-- A node is entered and closed in both runs, with the same steps in between. -/
theorem Follows.enter {body body' : Recover Unit} (node : Node) (h : Follows indent body body') :
    Follows indent (enter node body) (enter (node.shift indent.width) body') :=
  (Shifts.within node h).bind fun closed => attach closed

/-- A node of a kind that is moved along with its symbols. -/
theorem Follows.enterLeaf {kind kind' : NodeKind} (hkind : kind.shift indent.width = kind')
    (span : Span) {body body' : Recover Unit} (h : Follows indent body body') :
    Follows indent (Recover.enter (.leaf kind span) body)
      (Recover.enter (.leaf kind' (span.shift indent.width)) body') := by
  subst hkind
  exact enter (.leaf kind span) h

/-- A node that starts without children is put together in both runs. -/
theorem Shifts.withinLeaf {kind kind' : NodeKind} (hkind : kind.shift indent.width = kind')
    (span : Span) {body body' : Recover Unit} (h : Follows indent body body') :
    Shifts indent (Recover.within (.leaf kind span) body)
      (Recover.within (.leaf kind' (span.shift indent.width)) body') (Node.shift indent.width) := by
  subst hkind
  exact within (.leaf kind span) h

end Recover

end Concretion
