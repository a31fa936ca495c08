import Concretion.Proofs.Sound

/-!
# Soundness of the steps of a recovery

The operations on a session out of which the rules are made, one by one.

- `Sound.silent`: steps that neither fail nor miss a token.
- `Sound.edit`: changes to the children of the innermost open node that may be refused.
- `Sound.report`: the only step that does something else when no token may be missed.
- `Sound.within`, `Sound.enter`: what happens inside a node that is opened and closed again.
- `Sound.deferring`: what happens while a node is on the shelf.
-/

namespace Concretion

namespace Session

/-- The session after a node has been opened. -/
def opening (session : Session) (node : Node) : Session :=
  { session.note (.opened session.stack.depth node.kind.name node.span) with
    stack := session.stack.push node }

/-- The session after the innermost open node has been closed, when the given stack is left. -/
def closing (session : Session) (stack : Stack) (kind : NodeKind) : Session :=
  { session.note (.closed stack.depth kind.name) with stack := stack }

/-- The session after a node has been deferred. -/
def deferred (session : Session) (node : Node) : Session :=
  { session with shelf := (session.shelf.put node).2 }

/-- The session after a token has been missed, with a fallback in its place. -/
def lacking (session : Session) (missing : Missing) : Session :=
  { session.note (.fallback missing) with warnings := session.warnings.push missing }

/-- Only an entry on a missing token counts among the fallbacks. -/
theorem fallbacks_note {entry : Entry} (session : Session) (h : entry.fallback? = none) :
    (session.note entry).fallbacks = session.fallbacks := by
  simp [fallbacks, note, h]

end Session

namespace Source

/-- What is found starts in the window. -/
theorem find_bounds {source : Source} {token : String} {start finish offset : Nat}
    (h : source.find token start finish = some offset) : start ≤ offset ∧ offset < finish := by
  have hfirst := Search.firstFrom_eq_some_iff.1 h
  exact ⟨hfirst.low, Nat.lt_of_lt_of_le hfirst.lt_stop (Nat.min_le_left _ _)⟩

/-- So does a word. -/
theorem findWord_bounds {source : Source} {word : String} {start finish offset : Nat}
    (h : source.findWord word start finish = some offset) : start ≤ offset ∧ offset < finish := by
  have hfirst := Search.firstFrom_eq_some_iff.1 h
  exact ⟨hfirst.low, Nat.lt_of_lt_of_le hfirst.lt_stop (Nat.min_le_left _ _)⟩

/-- The search from the other end stays in the window as well. -/
theorem findLast_bounds {source : Source} {token : String} {start finish offset : Nat}
    (h : source.findLast token start finish = some offset) : start ≤ offset ∧ offset < finish := by
  have hlast := Search.lastFrom_eq_some_iff.1 h
  exact ⟨hlast.low, Nat.lt_of_lt_of_le hlast.lt_stop (Nat.min_le_left _ _)⟩

/-- So does that for a word. -/
theorem findLastWord_bounds {source : Source} {word : String} {start finish offset : Nat}
    (h : source.findLastWord word start finish = some offset) :
    start ≤ offset ∧ offset < finish := by
  have hlast := Search.lastFrom_eq_some_iff.1 h
  exact ⟨hlast.low, Nat.lt_of_lt_of_le hlast.lt_stop (Nat.min_le_left _ _)⟩

section Locate

variable {source : Source} {context token : String} {start finish offset : Nat}

/-- What is located has been found. -/
theorem locate_eq_ok_iff : source.locate context token start finish = .ok offset ↔
    source.find token start finish = some offset := by
  rw [locate]
  split <;> simp [*]

/-- The same from the other end of the window. -/
theorem locateLast_eq_ok_iff : source.locateLast context token start finish = .ok offset ↔
    source.findLast token start finish = some offset := by
  rw [locateLast]
  split <;> simp [*]

/-- The same for a word. -/
theorem locateWord_eq_ok_iff : source.locateWord context token start finish = .ok offset ↔
    source.findWord token start finish = some offset := by
  rw [locateWord]
  split <;> simp [*]

/-- The same for a word, from the other end of the window. -/
theorem locateLastWord_eq_ok_iff : source.locateLastWord context token start finish = .ok offset ↔
    source.findLastWord token start finish = some offset := by
  rw [locateLastWord]
  split <;> simp [*]

/-- The same for a string with the given content. -/
theorem locateString_eq_ok_iff {range : Range} :
    source.locateString context token start finish = .ok range ↔
      source.findString token start finish = some range := by
  rw [locateString]
  split <;> simp [*]

end Locate

end Source

namespace Recover

variable {α : Type}

/-- A node is deferred while a computation goes on, and then taken back. -/
def deferring (node : Node) (body : Recover Unit) : Recover Node := do
  let ticket ← defer node
  body
  takeDeferred ticket

/-- What goes on with the node goes on with what is taken back. -/
theorem deferring_bind {β : Type} (node : Node) (body : Recover Unit) (next : Node → Recover β) :
    deferring node body >>= next = (do
      let ticket ← defer node
      body
      let taken ← takeDeferred ticket
      next taken) := by
  simp only [deferring, bind_assoc]

/-! ## Outcomes -/

/-- A missing token ends the recovery in strict mode, and becomes a warning in lenient mode. -/
theorem outcome_report (missing : Missing) (scope : Scope) (session : Session) :
    (report missing).outcome scope session =
      if scope.strict then (.error (.missing missing), session)
      else (.ok (), session.lacking missing) := by
  obtain ⟨source, info, strict⟩ := scope
  cases strict <;> rfl

/-- Whatever the body comes to, the node is closed and made to cover its children. -/
theorem outcome_within {node closed : Node} {body : Recover Unit} {scope : Scope}
    {session later : Session} {reached : Except Failure Unit}
    (hbody : body.outcome scope (session.opening node) = (reached, later))
    (hstack : later.stack = session.stack.push closed) :
    (within node body).outcome scope session =
      ((closed.cover.mapError .reversed).bind fun covered => reached.map fun _ => covered,
        later.closing session.stack closed.kind) := by
  obtain ⟨stack, names, shelf, skipsName, warnings, journal⟩ := later
  simp only at hstack
  subst hstack
  have hopen : (openNode node).outcome scope session = (.ok (), session.opening node) := rfl
  have hattempt : (attempt body).outcome scope (session.opening node) =
      (.ok reached, ⟨session.stack.push closed, names, shelf, skipsName, warnings, journal⟩) := by
    rw [outcome_attempt, hbody]
  have hclose : closeNode.outcome scope
      ⟨session.stack.push closed, names, shelf, skipsName, warnings, journal⟩ =
      (.ok closed, Session.closing
        ⟨session.stack.push closed, names, shelf, skipsName, warnings, journal⟩ session.stack
          closed.kind) := rfl
  rw [within, outcome_bind_ok hopen, outcome_bind_ok hattempt, outcome_bind_ok hclose]
  cases closed.cover <;> cases reached <;> rfl

/-- A failure leaves the node on the shelf. -/
theorem outcome_deferring_error {node : Node} {body : Recover Unit} {scope : Scope}
    {session later : Session} {failure : Failure}
    (hbody : body.outcome scope (session.deferred node) = (.error failure, later)) :
    (deferring node body).outcome scope session = (.error failure, later) := by
  have hdefer : (defer node).outcome scope session =
      (.ok (session.shelf.put node).1, session.deferred node) := rfl
  rw [deferring, outcome_bind_ok hdefer, outcome_bind_error hbody]

/-- A success takes the node back, unless it is not there any more. -/
theorem outcome_deferring_ok {node taken : Node} {body : Recover Unit} {scope : Scope}
    {session later : Session} {shelf : Shelf}
    (hbody : body.outcome scope (session.deferred node) = (.ok (), later))
    (htake : later.shelf.take (session.shelf.put node).1 = .ok (taken, shelf)) :
    (deferring node body).outcome scope session = (.ok taken, { later with shelf := shelf }) := by
  have hdefer : (defer node).outcome scope session =
      (.ok (session.shelf.put node).1, session.deferred node) := rfl
  have hget : (get : Recover Session).outcome scope later = (.ok later, later) := rfl
  rw [deferring, outcome_bind_ok hdefer, outcome_bind_ok hbody, takeDeferred,
    outcome_bind_ok hget, htake]
  rfl

namespace Sound

variable {orderly : Prop} {inner : Bool} {result : α → Prop}

/-! ## Steps that cannot fail -/

/-- A step that cannot fail, misses no token, and does not ask whether it may. -/
theorem silent {action : Recover α} (value : Source → Option ModuleInfo → Session → α)
    (next : Session → Session)
    (hrun : ∀ scope session, action.outcome scope session =
      (.ok (value scope.source scope.info session), next session))
    (hframe : ∀ session, Stack.Frame inner session.stack (next session).stack)
    (hpending : ∀ session, (next session).shelf.pending = session.shelf.pending)
    (hwarnings : ∀ session, (next session).warnings = session.warnings)
    (hfallbacks : ∀ session, (next session).fallbacks = session.fallbacks)
    (hstack : ∀ session, orderly → session.stack.Ordered → (next session).stack.Ordered)
    (hvalue : ∀ source info session, orderly → session.stack.Ordered →
      result (value source info session)) :
    Sound orderly inner action result where
  kept scope session _ := by
    rw [hrun]
    exact ⟨hframe session, fun _ _ => hpending session, fun _ h => by cases h⟩
  tidy o scope session hs := by
    rw [hrun]
    exact ⟨hstack session o hs, fun _ h => Except.ok.inj h ▸ hvalue _ _ session o hs,
      fun _ h => by cases h⟩
  cutOff _ scope session _ := by
    rw [hrun, hrun]
    exact ⟨[], .of_same (hwarnings session) (hfallbacks session) fun _ h => by cases h⟩

/-- A step that only looks at the scope or the session. -/
theorem look {action : Recover α} (value : Source → Option ModuleInfo → Session → α)
    (hrun : ∀ scope session, action.outcome scope session =
      (.ok (value scope.source scope.info session), session))
    (hvalue : ∀ source info session, orderly → session.stack.Ordered →
      result (value source info session)) :
    Sound orderly inner action result :=
  silent value id hrun (fun _ => .refl _) (fun _ => rfl) (fun _ => rfl) (fun _ => rfl)
    (fun _ _ h => h) hvalue

/-- A step that changes neither the open nodes nor what is deferred. -/
theorem aside {action : Recover α} (value : Session → α) (next : Session → Session)
    (hrun : ∀ scope session, action.outcome scope session = (.ok (value session), next session))
    (hstack : ∀ session, (next session).stack = session.stack)
    (hshelf : ∀ session, (next session).shelf = session.shelf)
    (hwarnings : ∀ session, (next session).warnings = session.warnings)
    (hfallbacks : ∀ session, (next session).fallbacks = session.fallbacks) :
    Builds orderly inner action :=
  silent (fun _ _ => value) next hrun (fun session => hstack session ▸ .refl _)
    (fun session => by rw [hshelf]) hwarnings hfallbacks (fun session _ h => hstack session ▸ h)
    fun _ _ _ _ _ => trivial

theorem source : Builds orderly inner source :=
  look (fun source _ _ => source) (fun _ _ => rfl) fun _ _ _ _ _ => trivial

/-- The spans of the stack are in order if those of the session are. -/
theorem getStack : Sound orderly inner getStack Stack.Ordered :=
  look (fun _ _ session => session.stack) (fun _ _ => rfl) fun _ _ _ _ h => h

theorem exportStatus (name : String) : Builds orderly inner (exportStatus name) :=
  look (fun _ info _ => .of info name) (fun _ _ => rfl) fun _ _ _ _ _ => trivial

theorem gapStart : Builds orderly inner gapStart :=
  look (fun _ _ session => session.stack.gapStart) (fun _ _ => rfl) fun _ _ _ _ _ => trivial

theorem endsWithSemicolon (finish : Nat) : Builds orderly inner (endsWithSemicolon finish) :=
  look (fun source _ _ => source.endsWithSemicolon finish) (fun _ _ => rfl)
    fun _ _ _ _ _ => trivial

theorem terminates (node : Node) (finish : Nat) : Builds orderly inner (terminates node finish) :=
  endsWithSemicolon _

/-- An entry on a missing token is made by a report only. -/
theorem note {entry : Entry} (h : entry.fallback? = none) : Builds orderly inner (note entry) :=
  aside (fun _ => ()) (fun session => session.note entry) (fun _ _ => rfl) (fun _ => rfl)
    (fun _ => rfl) (fun _ => rfl) fun session => session.fallbacks_note h

theorem skipNextName : Builds orderly inner skipNextName :=
  aside (fun _ => ()) (fun session => { session with skipsName := true }) (fun _ _ => rfl)
    (fun _ => rfl) (fun _ => rfl) (fun _ => rfl) fun _ => rfl

theorem takeSkip : Builds orderly inner takeSkip :=
  aside (fun session => session.skipsName) (fun session => { session with skipsName := false })
    (fun _ _ => rfl) (fun _ => rfl) (fun _ => rfl) (fun _ => rfl) fun _ => rfl

theorem intern (text : String) : Builds orderly inner (intern text) :=
  aside (fun _ => ()) (fun session => { session with names := session.names.enter text })
    (fun _ _ => rfl) (fun _ => rfl) (fun _ => rfl) (fun _ => rfl) fun _ => rfl

/-- A change to the stack has to keep the frame, and the spans in order. -/
theorem modifyStack {change : Stack → Stack}
    (hframe : ∀ stack, Stack.Frame inner stack (change stack))
    (hstack : ∀ stack, orderly → stack.Ordered → (change stack).Ordered) :
    Builds orderly inner (modifyStack change) :=
  silent (fun _ _ _ => ()) (fun session => { session with stack := change session.stack })
    (fun _ _ => rfl) (fun _ => hframe _) (fun _ => rfl) (fun _ => rfl) (fun _ => rfl)
    (fun _ o h => hstack _ o h) fun _ _ _ _ _ => trivial

/-- The spans of the node have to be in order. -/
theorem attach {node : Node} (hn : orderly → node.Ordered) :
    Builds orderly inner (attach node) :=
  modifyStack (fun stack => .attach stack node)
    fun _ o h => h.modifyCurrent (h.current.addChild (hn o))

/-- The last child of the open node may be replaced, since that is no part of the frame. -/
theorem replaceLast {node : Node} (hn : orderly → node.Ordered) :
    Builds orderly inner
      (Recover.modifyStack (·.modifyCurrent (·.modifyLastChild fun _ => node))) :=
  modifyStack (fun stack => .replaceLast stack _)
    fun _ o h => h.modifyCurrent (h.current.modifyLastChild fun _ _ => hn o)

/-! ## Spans -/

/-- A failure must concern neither the cursor nor a missing token, and its label has to be
in order. -/
theorem orFail {found : Except Failure α} (hv : ∀ value, found = .ok value → orderly → result value)
    (hf : ∀ failure, found = .error failure → failure.concernsCursor = false ∧
      failure.isWarning = false ∧ (orderly → failure.Ordered)) :
    Sound orderly inner (orFail found) result := by
  cases found with
  | ok value => exact pure (hv value rfl)
  | error failure =>
    obtain ⟨hc, hw, ho⟩ := hf failure rfl
    exact throw hc hw ho

/-- Ends in the wrong order would be a failure, but they do not occur where order is kept. -/
theorem orFail_reversed {found : Except Span.Reversed α}
    (hv : orderly → ∃ value, result value ∧ found = .ok value) :
    Sound orderly inner (Recover.orFail (found.mapError .reversed)) result := by
  refine orFail (fun value hvalue o => ?_) fun failure hfailure => ?_
  · obtain ⟨span, hspan, rfl⟩ := hv o
    cases hvalue
    exact hspan
  · cases found with
    | ok span => cases hfailure
    | error ends =>
      cases hfailure
      refine ⟨rfl, rfl, fun o => ?_⟩
      obtain ⟨span, -, hok⟩ := hv o
      cases hok

/-- Of ends that are not in order no span is made, so this must be known beforehand. -/
theorem spanBetween {start last : Nat} (h : orderly → start ≤ last) :
    Sound orderly inner (spanBetween start last) fun span => span.Ordered ∧ span.start = start := by
  refine orFail_reversed fun o => ⟨⟨start, last⟩, ⟨h o, rfl⟩, Span.make_of_le (h o)⟩

/-- With one span in order, the merged one starts no later and ends no earlier. -/
theorem mergeSpans {a b : Span} (h : orderly → a.Ordered) :
    Sound orderly inner (mergeSpans a b) Span.Ordered := by
  refine orFail_reversed fun o => ⟨_, ?_, Span.merge_of_ordered (.inl (h o))⟩
  have ha : a.start ≤ a.last := h o
  simp only [Span.Ordered]
  omega

/-- A span of a range is in order by construction, and a range that is not fails. -/
theorem rangeSpan (start finish : Nat) :
    Sound orderly inner (rangeSpan start finish) Span.Ordered := by
  refine source.bind fun text _ => orFail (fun span hspan _ => ?_) fun failure hfailure => ?_
  · simp only [Source.rangeSpan] at hspan
    split at hspan
    · cases hspan
      exact Span.ordered_ofBounds start finish
    · cases hspan
  · simp only [Source.rangeSpan] at hfailure
    split at hfailure
    · cases hfailure
    · cases hfailure
      exact ⟨rfl, rfl, fun _ => trivial⟩

/-! ## Missing tokens -/

/-- The one step at which the two ways to recover part. -/
theorem report (missing : Missing) : Builds orderly inner (report missing) where
  kept scope session _ := by
    obtain ⟨source, info, strict⟩ := scope
    cases strict with
    | false => exact ⟨.refl _, fun _ _ => rfl, fun _ h => by cases h⟩
    | true => exact ⟨.refl _, fun _ h => (by cases h), fun _ h => Except.error.inj h ▸ rfl⟩
  tidy _ scope session hs := by
    obtain ⟨source, info, strict⟩ := scope
    cases strict with
    | false => exact ⟨hs, fun _ _ => trivial, fun _ h => by cases h⟩
    | true => exact ⟨hs, fun _ h => (by cases h), fun _ h => Except.error.inj h ▸ trivial⟩
  cutOff _ scope session _ := by
    refine ⟨[missing], ?_, ?_, fun _ h => (by cases h), fun h => (by cases h), fun token h => ?_⟩
    · exact Array.toList_push
    · show (session.journal.push (.fallback missing)).toList.filterMap _ = _
      simp [Session.fallbacks, Entry.fallback?]
    · cases h
      rfl

/-- The result is what was located, or the fallback in its place. -/
theorem settle {found : Except Missing α} {fallback : α} :
    Sound orderly inner (settle found fallback)
      fun value => found = .ok value ∨ value = fallback := by
  cases found with
  | ok value => exact pure fun _ => .inl rfl
  | error missing => exact (report missing).andThen (pure fun _ => .inr rfl)

/-- Nothing takes the place of what is missed. -/
theorem settle? {found : Except Missing α} :
    Sound orderly inner (settle? found) fun value => ∀ located ∈ value, found = .ok located := by
  cases found with
  | ok value => exact pure fun _ located h => by cases h; rfl
  | error missing => exact (report missing).andThen (pure fun _ _ h => by cases h)

/-! ## Symbols -/

/-- A symbol covers at least one offset, and starts where it was located. -/
theorem symbolAt_start (token : Token) (start : Nat) :
    Sound orderly inner (symbolAt token start)
      fun symbol => symbol.Ordered ∧ symbol.span.start = start := by
  refine (spanBetween fun _ => ?_).bind fun span hspan => ?_
  · omega
  · exact (intern _).andThen (pure hspan)

/-- A symbol covers at least one offset, so its span is in order. -/
theorem symbolAt (token : Token) (start : Nat) :
    Sound orderly inner (symbolAt token start) Symbol.Ordered :=
  (symbolAt_start token start).mono fun _ _ h => h.1

/-- The symbol has the span that it is made from. -/
theorem symbolOver {kind : TokenKind} {span : Span} (hs : orderly → span.Ordered) :
    Sound orderly inner (symbolOver kind span) Symbol.Ordered :=
  source.bind fun _ _ => (intern _).andThen (pure hs)

/-- The symbol is in order wherever it is put. -/
theorem find (token : Token) (context : String) (start finish : Nat) :
    Sound orderly inner (find token context start finish) Symbol.Ordered :=
  source.bind fun _ _ => settle.bind fun offset _ => symbolAt token offset

/-- As for `find`, from the other end of the window. -/
theorem findLast (token : Token) (context : String) (start finish : Nat) :
    Sound orderly inner (findLast token context start finish) Symbol.Ordered :=
  source.bind fun _ _ => settle.bind fun offset _ => symbolAt token offset

theorem findWord (word context : String) (start finish : Nat) :
    Sound orderly inner (findWord word context start finish) Symbol.Ordered :=
  source.bind fun _ _ => settle.bind fun offset _ => symbolAt _ offset

/-- The search goes on behind the offset if the token is not there. -/
theorem findAtOrAfter (token : Token) (context : String) (offset finish : Nat) :
    Sound orderly inner (findAtOrAfter token context offset finish) Symbol.Ordered := by
  refine source.bind fun text _ => ?_
  split
  · exact symbolAt token offset
  · exact find token context offset finish

/-- The search goes on in front of the offset if the token does not end there. -/
theorem findEndingAt (token : Token) (context : String) (start finish : Nat) :
    Sound orderly inner (findEndingAt token context start finish) Symbol.Ordered := by
  refine source.bind fun text _ => ?_
  split
  · exact symbolAt token _
  · exact findLast token context start finish

/-- A name is a leaf over its range. -/
theorem identifier (start finish : Nat) (name : String) :
    Sound orderly inner (identifier start finish name) Node.Ordered := by
  refine (rangeSpan start finish).bind fun span hspan => (intern name).andThen ?_
  exact pure fun o => Node.ordered_single (hspan o) rfl (hspan o)

/-- A keyword that is found starts before the end of the window. -/
theorem findLastWord? (word context : String) (start finish : Nat) :
    Sound orderly inner (findLastWord? word context start finish)
      fun found => ∀ symbol ∈ found, symbol.Ordered ∧ symbol.span.start < finish := by
  refine source.bind fun text _ => settle?.bind fun found hfound => ?_
  cases found with
  | none => exact pure fun _ _ h => by cases h
  | some offset =>
    refine (symbolAt_start _ offset).bind fun symbol hsymbol => pure fun o other hother => ?_
    cases hother
    obtain ⟨hordered, hstart⟩ := hsymbol o
    refine ⟨hordered, ?_⟩
    rw [hstart]
    exact (Source.findLastWord_bounds (Source.locateLastWord_eq_ok_iff.1 (hfound o offset rfl))).2

/-! ## Changes to the children -/

/-- A change to the children of the innermost open node that may be refused. -/
theorem edit {change : Stack → Except Failure Stack}
    (hok : ∀ before after, change before = .ok after →
      Stack.Frame inner before after ∧ (orderly → before.Ordered → after.Ordered))
    (herror : ∀ before failure, change before = .error failure →
      ∃ fault : ShapeFault, fault.concernsCursor = false ∧ failure = before.fault fault) :
    Builds orderly inner (edit change) := by
  constructor
  · intro scope session _
    rw [outcome_edit]
    cases hchange : change session.stack with
    | ok after => exact ⟨(hok _ _ hchange).1, fun _ _ => rfl, fun _ h => by cases h⟩
    | error failure =>
      obtain ⟨fault, hfault, rfl⟩ := herror _ _ hchange
      exact ⟨.refl _, fun _ h => (by cases h), fun _ h => Except.error.inj h ▸ hfault⟩
  · intro o scope session hs
    rw [outcome_edit]
    cases hchange : change session.stack with
    | ok after => exact ⟨(hok _ _ hchange).2 o hs, fun _ _ => trivial, fun _ h => by cases h⟩
    | error failure =>
      obtain ⟨fault, -, rfl⟩ := herror _ _ hchange
      exact ⟨hs, fun _ h => (by cases h), fun _ h => Except.error.inj h ▸ hs.fault fault⟩
  · -- A change does not see the scope, so the strict run comes to the same as the lenient one.
    intro _ scope session _
    rw [outcome_edit, outcome_edit]
    refine ⟨[], ?_⟩
    cases hchange : change session.stack with
    | ok after => exact .of_same rfl rfl fun _ h => by cases h
    | error failure =>
      obtain ⟨fault, -, rfl⟩ := herror _ _ hchange
      exact .of_same rfl rfl fun _ h => Except.error.inj h ▸ rfl

/-- Children are put in order below the open node only. -/
theorem reorder (permutation : List Nat) : Builds orderly true (reorder permutation) := by
  rw [Recover.reorder]
  refine edit (fun before after h => ?_) fun before failure h => ?_
  · rw [Stack.reorder_eq] at h
    split at h
    · cases h
      refine ⟨.setChildren before _, fun _ hs => hs.modifyCurrent (hs.current.withChildren ?_)⟩
      intro child hchild
      obtain ⟨index, -, hindex⟩ := List.mem_filterMap.1 hchild
      exact hs.current.children child (List.mem_of_getElem? hindex)
    · cases h
  · rw [Stack.reorder_eq] at h
    split at h
    · cases h
    · cases h
      exact ⟨_, rfl, rfl⟩

/-- Moving a child under a wrapper keeps kind and span of the node, and the order of the spans. -/
theorem wrapChild_ok {before after : Stack} {index : Nat} {wrapper : Node}
    (h : before.wrapChild index wrapper = .ok after) :
    Stack.Frame true before after ∧
      (before.Ordered → wrapper.Ordered → after.Ordered) := by
  obtain ⟨child, hchild, rfl⟩ := Stack.of_wrapChild h
  refine ⟨.setChildren before _, fun hs hw => ?_⟩
  have hchildren := hs.current.children
  refine hs.modifyCurrent (hs.current.withChildren fun other hother => ?_)
  obtain hother | rfl := List.mem_or_eq_of_mem_set hother
  · exact hchildren other hother
  · exact hw.addChild (hchildren child (List.mem_of_getElem? hchild))

/-- There is one reason to fail, and its label is the span of the open node. -/
theorem wrapChild_error {before : Stack} {index : Nat} {wrapper : Node} {failure : Failure}
    (h : before.wrapChild index wrapper = .error failure) :
    failure = before.fault (.noChildToWrap index) := by
  simp only [Stack.wrapChild] at h
  split at h
  · cases h
  · cases h
    rfl

/-- The group takes the place of the last child, so this happens below a node only. -/
theorem groupLastChild : Builds orderly true groupLastChild := by
  rw [Recover.groupLastChild]
  refine edit (fun before after h => ?_) fun before failure h => ?_
  · simp only [Stack.groupLastChild] at h
    split at h
    · next child hchild =>
      obtain ⟨hframe, hordered⟩ := wrapChild_ok h
      refine ⟨hframe, fun _ hs => hordered hs ?_⟩
      exact Node.ordered_bare (hs.lastChild child hchild).span rfl
    · cases h
  · simp only [Stack.groupLastChild] at h
    split at h
    · exact ⟨_, rfl, wrapChild_error h⟩
    · cases h
      exact ⟨_, rfl, rfl⟩

/-- The wrapper takes the place of a child of the open node. -/
theorem wrapChild (index : Nat) {wrapper : Node} (hw : orderly → wrapper.Ordered) :
    Builds orderly true (wrapChild index wrapper) := by
  rw [Recover.wrapChild]
  refine edit (fun before after h => ?_) fun before failure h => ⟨_, rfl, wrapChild_error h⟩
  obtain ⟨hframe, hordered⟩ := wrapChild_ok h
  exact ⟨hframe, fun o hs => hordered hs (hw o)⟩

/-- A wrong number of children fails under the span of the open node. -/
theorem expectChildren (expected : Nat) : Builds orderly inner (expectChildren expected) := by
  refine getStack.bind fun stack hstack => ?_
  dsimp only
  split
  · exact throw rfl rfl fun o => (hstack o).fault _
  · exact pure fun _ => trivial

/-! ## Open nodes -/

/-- Where order is kept the closed node can always be made to cover its children, so the body alone
decides whether the node is recovered. -/
theorem outcome_within_orderly {node : Node} {body : Recover Unit} (o : orderly)
    (hn : node.Ordered) (hb : Builds orderly true body) (scope : Scope) {session : Session}
    (hs : session.stack.Ordered) :
    ∃ covered : Node, covered.Ordered ∧ ∀ {run} (other : Scope),
      body.outcome scope (session.opening node) = run →
      body.outcome other (session.opening node) = run →
      (Recover.within node body).outcome other session =
        (run.1.map fun _ => covered, run.2.closing session.stack node.kind) := by
  have hopening : (session.opening node).stack.Ordered := hs.push hn
  have hkept := hb.kept scope (session.opening node) fun _ => hopening
  have htidy := hb.tidy o scope (session.opening node) hopening
  obtain ⟨closed, hkind, -, -, hstack⟩ := hkept.frame.of_push
  have hclosed : closed.Ordered :=
    htidy.stack.opened closed (by rw [hstack]; exact List.mem_cons_self)
  obtain ⟨wide, hwide, hcover⟩ := Node.cover_eq hclosed.span
  refine ⟨_, hclosed.rebuild hwide hclosed.children closed.ownsSemicolon, ?_⟩
  intro run other hrun hother
  rw [hrun] at hstack
  rw [outcome_within hother hstack, hcover, hkind]
  rfl

/-- A node that is opened for a while. The stack is then what it was, for the body has changed no
more than the children of the node. -/
theorem within {node : Node} {body : Recover Unit} (hn : orderly → node.Ordered)
    (hb : Builds orderly true body) : Sound orderly inner (within node body) Node.Ordered where
  kept scope session ho := by
    have hopening : orderly → (session.opening node).stack.Ordered := fun o => (ho o).push (hn o)
    have hkept := hb.kept scope (session.opening node) hopening
    rcases hrun : body.outcome scope (session.opening node) with ⟨reached, later⟩
    rw [hrun] at hkept
    obtain ⟨closed, -, -, -, hstack⟩ := hkept.frame.of_push
    rw [outcome_within hrun hstack]
    refine ⟨.refl _, fun value hvalue => ?_, fun failure hfailure => ?_⟩
    · cases reached with
      | ok => exact hkept.pending () rfl
      | error failure => cases hcover : closed.cover <;> rw [hcover] at hvalue <;> cases hvalue
    · cases hcover : closed.cover with
      | error ends =>
        rw [hcover] at hfailure
        cases hfailure
        rfl
      | ok covered =>
        rw [hcover] at hfailure
        cases reached with
        | ok => cases hfailure
        | error failure =>
          cases hfailure
          exact hkept.cursor _ rfl
  tidy o scope session hs := by
    have htidy := hb.tidy o scope (session.opening node) (hs.push (hn o))
    obtain ⟨covered, hcovered, hrun⟩ := outcome_within_orderly o (hn o) hb scope hs
    rcases hbody : body.outcome scope (session.opening node) with ⟨reached, later⟩
    rw [hbody] at htidy
    rw [hrun scope hbody hbody]
    refine ⟨hs, fun value hvalue => ?_, fun failure hfailure => ?_⟩
    · cases reached <;> cases hvalue
      exact hcovered
    · cases reached <;> cases hfailure
      exact htidy.failure _ rfl
  -- Both runs of the body start from the same open node. What they miss is missed inside, for the
  -- cover never fails on a body that keeps the order.
  cutOff o scope session hs := by
    obtain ⟨missed, hcut⟩ := hb.cutOff o scope (session.opening node) (hs.push (hn o))
    obtain ⟨covered, -, hlenient⟩ := outcome_within_orderly o (hn o) hb scope.lenient hs
    obtain ⟨covered', -, hstrict⟩ := outcome_within_orderly o (hn o) hb scope.strictly hs
    rcases hbody : body.outcome scope.lenient (session.opening node) with ⟨reached, later⟩
    rcases hbody' : body.outcome scope.strictly (session.opening node) with ⟨reached', later'⟩
    rw [hbody, hbody'] at hcut
    rw [hlenient scope.lenient hbody hbody]
    refine ⟨missed, hcut.warnings, ?_, fun failure hfailure => ?_, fun hnone => ?_,
      fun token htoken => ?_⟩
    · refine ((Session.fallbacks_note _ rfl).trans hcut.fallbacks).trans ?_
      exact congrArg (· ++ missed) (session.fallbacks_note rfl)
    · cases reached <;> cases hfailure
      exact hcut.goesOn _ rfl
    · exact hlenient scope.strictly hbody (hbody'.trans (hcut.same hnone))
    · have hfirst := hcut.first token htoken
      rw [hstrict scope.strictly hbody' hbody']
      cases hfirst
      rfl

/-- A node that is opened is closed again, so the frame is the same as before. -/
theorem enter {node : Node} {body : Recover Unit} (hn : orderly → node.Ordered)
    (hb : Builds orderly true body) : Builds orderly inner (enter node body) :=
  (within hn hb).bind fun _ hclosed => attach hclosed

/-! ## Deferred nodes -/

/-- While a node is deferred others may be deferred too, as long as they are taken back. -/
theorem deferring {node : Node} {body : Recover Unit} (hb : Builds orderly inner body) :
    Sound orderly inner (deferring node body) fun taken => taken = node := by
  -- what the body leaves on the shelf is what it found there, the deferred node included
  have htake : ∀ {scope : Scope} {session later : Session}, (orderly → session.stack.Ordered) →
      body.outcome scope (session.deferred node) = (.ok (), later) →
      ∃ shelf, later.shelf.take (session.shelf.put node).1 = .ok (node, shelf) ∧
        shelf.pending = session.shelf.pending := by
    intro scope session later ho hrun
    have hkept := hb.kept scope (session.deferred node) ho
    rw [hrun] at hkept
    exact session.shelf.take_put node (hkept.pending () rfl)
  constructor
  · intro scope session ho
    have hkept := hb.kept scope (session.deferred node) ho
    rcases hrun : body.outcome scope (session.deferred node) with ⟨failure | _, later⟩
    · rw [outcome_deferring_error hrun]
      rw [hrun] at hkept
      exact ⟨hkept.frame, fun _ h => (by cases h),
        fun _ h => Except.error.inj h ▸ hkept.cursor _ rfl⟩
    · obtain ⟨shelf, hshelf, hpending⟩ := htake ho hrun
      rw [outcome_deferring_ok hrun hshelf]
      rw [hrun] at hkept
      exact ⟨hkept.frame, fun _ _ => hpending, fun _ h => by cases h⟩
  · intro o scope session hs
    have htidy := hb.tidy o scope (session.deferred node) hs
    rcases hrun : body.outcome scope (session.deferred node) with ⟨failure | _, later⟩
    · rw [outcome_deferring_error hrun]
      rw [hrun] at htidy
      exact ⟨htidy.stack, fun _ h => (by cases h),
        fun _ h => Except.error.inj h ▸ htidy.failure _ rfl⟩
    · obtain ⟨shelf, hshelf, -⟩ := htake (fun _ => hs) hrun
      rw [outcome_deferring_ok hrun hshelf]
      rw [hrun] at htidy
      exact ⟨htidy.stack, fun _ h => (Except.ok.inj h).symm, fun _ h => by cases h⟩
  · intro o scope session hs
    obtain ⟨missed, hcut⟩ := hb.cutOff o scope (session.deferred node) hs
    refine ⟨missed, ?_⟩
    have hfirst : ∀ token ∈ missed.head?,
        ((Recover.deferring node body).outcome scope.strictly session).1 =
          .error (.missing token) := by
      intro token htoken
      rcases hstrict : body.outcome scope.strictly (session.deferred node) with ⟨reached, later⟩
      have hreached := hcut.first token htoken
      rw [hstrict] at hreached
      cases hreached
      rw [outcome_deferring_error hstrict]
    rcases hrun : body.outcome scope.lenient (session.deferred node) with ⟨failure | _, later⟩
    · rw [hrun] at hcut
      rw [outcome_deferring_error hrun]
      exact ⟨hcut.warnings, hcut.fallbacks, fun _ h => Except.error.inj h ▸ hcut.goesOn _ rfl,
        fun hnone => outcome_deferring_error (hcut.same hnone), hfirst⟩
    · obtain ⟨shelf, hshelf, -⟩ := htake (fun _ => hs) hrun
      rw [hrun] at hcut
      rw [outcome_deferring_ok hrun hshelf]
      exact ⟨hcut.warnings, hcut.fallbacks, fun _ h => (by cases h),
        fun hnone => outcome_deferring_ok (hcut.same hnone) hshelf, hfirst⟩

end Sound

end Recover

end Concretion
