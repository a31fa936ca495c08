import Concretion.Proofs.Sound.Steps

/-!
# Computations that succeed

To follow a run that succeeds it is enough to know the stack: what the computation yields, and which
stack it leaves behind. Everything else is then as before. No token is missed, the name of no
binding is to be skipped, and what has been deferred has been taken back.

- `Yields`: what a computation yields on a stack, and the stack it leaves behind.
- `Yields.bind`, `Yields.enter`, `Yields.deferring`: sequences, open nodes, and deferred nodes.
- `Yields.find`, `Yields.findEndingAt` and so on: tokens that are where they are looked for.
-/

namespace Concretion

namespace Node

theorem removeChild_addChild (outer node : Node) :
    (outer.addChild node).removeChild? outer.children.length = some (node, outer) := by
  obtain ⟨kind, span, children, ownsSemicolon⟩ := outer
  simp [removeChild?, addChild, List.eraseIdx_append_of_length_le]

theorem insertChild_length (outer node : Node) :
    outer.insertChild outer.children.length node = outer.addChild node := by
  obtain ⟨kind, span, children, ownsSemicolon⟩ := outer
  simp [insertChild, addChild]

end Node

namespace Stack

theorem lastChild?_attach (stack : Stack) (node : Node) :
    (stack.attach node).lastChild? = some node := by
  obtain ⟨root, _ | ⟨inner, outer⟩⟩ := stack <;> exact List.getLast?_concat

/-- Appends children to the innermost open node, one after the other. -/
def attachAll (stack : Stack) (nodes : List Node) : Stack := nodes.foldl attach stack

theorem attachAll_append (stack : Stack) (a b : List Node) :
    stack.attachAll (a ++ b) = (stack.attachAll a).attachAll b :=
  List.foldl_append

/-- What is attached to a node that has just been opened goes behind its children. -/
theorem push_attachAll (stack : Stack) (node : Node) (nodes : List Node) :
    (stack.push node).attachAll nodes =
      stack.push { node with children := node.children ++ nodes } := by
  induction nodes generalizing node with
  | nil =>
    cases node
    simp only [List.append_nil]
    rfl
  | cons first rest ih =>
    show ((stack.push node).attach first).attachAll rest = _
    exact (ih (node.addChild first)).trans (by simp [Node.addChild])

end Stack

/-- A child that has just been attached is put in a group of its own span. -/
theorem Stack.groupLastChild_attach (stack : Stack) (node : Node) :
    (stack.attach node).groupLastChild =
      .ok (stack.attach (.branch .group node.span [node])) := by
  have hcurrent : (stack.attach node).current = stack.current.addChild node := by
    obtain ⟨root, _ | ⟨inner, outer⟩⟩ := stack <;> rfl
  have hcount : (stack.current.addChild node).childCount - 1 = stack.current.children.length := by
    rw [Node.childCount, Node.addChild, List.length_append]
    exact Nat.add_sub_cancel _ _
  rw [groupLastChild, lastChild?_attach]
  simp only [wrapChild, hcurrent, hcount, Node.removeChild_addChild, Node.insertChild_length]
  obtain ⟨root, _ | ⟨inner, outer⟩⟩ := stack <;> rfl

namespace Recover

variable {α β : Type} {scope : Scope} {before middle after : Stack}

/-- On the stack `before` the computation yields the value, and leaves the stack `after` behind. -/
def Yields (scope : Scope) (before : Stack) (action : Recover α) (value : α) (after : Stack) :
    Prop :=
  ∀ session : Session, session.stack = before → session.skipsName = false →
    ∃ later, action.outcome scope session = (.ok value, later) ∧ later.stack = after ∧
      later.warnings = session.warnings ∧ later.skipsName = false ∧
        later.shelf.pending = session.shelf.pending

namespace Yields

theorem pure (value : α) : Yields scope before (Pure.pure value) value before :=
  fun session hstack hskips => ⟨session, rfl, hstack, rfl, hskips, rfl⟩

theorem bind {action : Recover α} {next : α → Recover β} {value : α} {result : β}
    (h : Yields scope before action value middle)
    (hn : Yields scope middle (next value) result after) :
    Yields scope before (action >>= next) result after := by
  intro session hstack hskips
  obtain ⟨later, hrun, hstack, hwarnings, hskips, hpending⟩ := h session hstack hskips
  obtain ⟨last, hrun', hstack', hwarnings', hskips', hpending'⟩ := hn later hstack hskips
  exact ⟨last, (outcome_bind_ok hrun).trans hrun', hstack', hwarnings'.trans hwarnings, hskips',
    hpending'.trans hpending⟩

/-! ## Steps -/

/-- A fault that is not there is not reported. -/
theorem skip {fault : Bool} {failure : Failure} (h : fault = false) :
    Yields scope before (if fault then throw failure else Pure.pure ()) () before := by
  subst h
  exact pure ()

theorem source : Yields scope before source scope.source before :=
  fun session hstack hskips => ⟨session, rfl, hstack, rfl, hskips, rfl⟩

theorem getStack : Yields scope before getStack before before :=
  fun session hstack hskips => ⟨session, hstack ▸ rfl, hstack, rfl, hskips, rfl⟩

theorem orFail {result : Except Failure α} {value : α} (h : result = .ok value) :
    Yields scope before (orFail result) value before := by
  subst h
  exact pure value

theorem takeSkip : Yields scope before takeSkip false before := by
  intro session hstack hskips
  have hrun : Recover.takeSkip.outcome scope session =
      (.ok session.skipsName, { session with skipsName := false }) := rfl
  rw [hskips] at hrun
  exact ⟨_, hrun, hstack, rfl, rfl, rfl⟩

theorem intern (text : String) : Yields scope before (intern text) () before :=
  fun session hstack hskips =>
    ⟨{ session with names := session.names.enter text }, rfl, hstack, rfl, hskips, rfl⟩

theorem note (entry : Entry) : Yields scope before (note entry) () before :=
  fun session hstack hskips => ⟨session.note entry, rfl, hstack, rfl, hskips, rfl⟩

theorem modifyStack (change : Stack → Stack) :
    Yields scope before (modifyStack change) () (change before) :=
  fun session hstack hskips =>
    ⟨{ session with stack := change session.stack }, rfl, hstack ▸ rfl, rfl, hskips, rfl⟩

theorem attach (node : Node) : Yields scope before (attach node) () (before.attach node) :=
  modifyStack _

theorem settle {found : Except Missing α} {value fallback : α} (h : found = .ok value) :
    Yields scope before (settle found fallback) value before := by
  subst h
  exact pure value

theorem settle? {found : Except Missing α} {value : α} (h : found = .ok value) :
    Yields scope before (settle? found) (some value) before := by
  subst h
  exact pure (some value)

/-! ## Nodes -/

/-- A node that is opened, filled and closed covers its children. -/
theorem within {node closed covered : Node} {body : Recover Unit}
    (hbody : Yields scope (before.push node) body () (before.push closed))
    (hcover : closed.cover = .ok covered) :
    Yields scope before (within node body) covered before := by
  intro session hstack hskips
  subst hstack
  obtain ⟨later, hrun, hstack, hwarnings, hskips', hpending⟩ :=
    hbody (session.opening node) rfl hskips
  refine ⟨later.closing session.stack closed.kind, ?_, rfl, hwarnings, hskips', hpending⟩
  rw [outcome_within hrun hstack, hcover]
  rfl

theorem enter {node closed covered : Node} {body : Recover Unit}
    (hbody : Yields scope (before.push node) body () (before.push closed))
    (hcover : closed.cover = .ok covered) :
    Yields scope before (enter node body) () (before.attach covered) :=
  (within hbody hcover).bind (attach covered)

/-- A deferred node is taken back unchanged. -/
theorem deferring {node : Node} {body : Recover Unit}
    (hbody : Yields scope before body () after) :
    Yields scope before (deferring node body) node after := by
  intro session hstack hskips
  obtain ⟨later, hrun, hstack, hwarnings, hskips', hpending⟩ :=
    hbody (session.deferred node) hstack hskips
  obtain ⟨shelf, htake, hshelf⟩ := Shelf.take_put session.shelf node hpending
  exact ⟨_, outcome_deferring_ok hrun htake, hstack, hwarnings, hskips', hshelf⟩

/-! ## Spans and symbols -/

theorem spanBetween {start last : Nat} (h : start ≤ last) :
    Yields scope before (spanBetween start last) ⟨start, last⟩ before := by
  refine orFail ?_
  rw [Span.make_of_le h]
  rfl

theorem mergeSpans {a b : Span} (ha : a.start ≤ b.start) (hb : a.last ≤ b.last)
    (ho : a.Ordered) : Yields scope before (mergeSpans a b) ⟨a.start, b.last⟩ before := by
  refine orFail ?_
  rw [Span.merge_of_ordered (.inl ho), Nat.min_eq_left ha, Nat.max_eq_right hb]
  rfl

theorem rangeSpan {start finish : Nat} {span : Span}
    (h : scope.source.rangeSpan start finish = .ok span) :
    Yields scope before (rangeSpan start finish) span before :=
  source.bind (orFail h)

theorem symbolAt (token : Token) (start : Nat) :
    Yields scope before (symbolAt token start)
      ⟨token.kind, ⟨start, start + max token.length 1 - 1⟩, token.text⟩ before :=
  (spanBetween (by omega)).bind ((intern _).bind (pure _))

theorem symbolOver {kind : TokenKind} {span : Span} {text : String}
    (h : scope.source.slice span.start (span.last + 1) = some text) :
    Yields scope before (symbolOver kind span) ⟨kind, span, text⟩ before := by
  have hsymbol : Yields scope before (Recover.symbolOver kind span)
      ⟨kind, span, (scope.source.slice span.start (span.last + 1)).getD ""⟩ before :=
    source.bind ((intern _).bind (pure _))
  rwa [h] at hsymbol

/-! ## Tokens -/

theorem find {token : Token} {context : String} {start finish offset : Nat}
    (h : scope.source.find token.text start finish = some offset) :
    Yields scope before (find token context start finish)
      ⟨token.kind, ⟨offset, offset + max token.length 1 - 1⟩, token.text⟩ before := by
  have hlocated : scope.source.locate context token.text start finish = .ok offset := by
    rw [Source.locate, h]
  exact source.bind ((settle hlocated).bind (symbolAt token offset))

theorem findWord {word context : String} {start finish offset : Nat}
    (h : scope.source.findWord word start finish = some offset) :
    Yields scope before (findWord word context start finish)
      ⟨.keyword, ⟨offset, offset + max (Token.keyword word).length 1 - 1⟩, word⟩ before := by
  have hlocated : scope.source.locateWord context word start finish = .ok offset := by
    rw [Source.locateWord, h]
  exact source.bind ((settle hlocated).bind (symbolAt (.keyword word) offset))

/-- A token that stands where it should. -/
theorem findAtOrAfter (token : Token) {context : String} {offset finish : Nat}
    (h : scope.source.slice offset (offset + token.length) = some token.text) :
    Yields scope before (findAtOrAfter token context offset finish)
      ⟨token.kind, ⟨offset, offset + max token.length 1 - 1⟩, token.text⟩ before := by
  refine source.bind ?_
  rw [h, if_pos (beq_self_eq_true _)]
  exact symbolAt token offset

/-- A token that finishes where it should. -/
theorem findEndingAt (token : Token) {context : String} {start offset : Nat}
    (hstart : start ≤ offset)
    (h : scope.source.slice offset (offset + token.length) = some token.text) :
    Yields scope before (findEndingAt token context start (offset + token.length))
      ⟨token.kind, ⟨offset, offset + max token.length 1 - 1⟩, token.text⟩ before := by
  refine source.bind ?_
  rw [Nat.add_sub_cancel, h, if_pos]
  · exact symbolAt token offset
  · simp only [beq_self_eq_true, Bool.and_true, Bool.and_eq_true, decide_eq_true_eq]
    omega

/-! ## Names and groups -/

theorem identifier {start finish : Nat} {name : String} {span : Span}
    (h : scope.source.rangeSpan start finish = .ok span) :
    Yields scope before (identifier start finish name)
      (.leaf (.identifier ⟨.identifier, span, name⟩) span) before :=
  (rangeSpan h).bind ((intern _).bind (pure _))

/-- The last child is put in a group of its own span. -/
theorem groupLastChild (node : Node) :
    Yields scope (before.attach node) groupLastChild ()
      (before.attach (.branch .group node.span [node])) := by
  exact getStack.bind ((orFail (before.groupLastChild_attach node)).bind (modifyStack _))

end Yields

end Recover

end Concretion
