import Concretion.Recovery.Stack

/-!
# Spans in order

A span has its ends in order when it does not finish before it starts. The checked constructor
`Span.make` sees to this where a span is made; here the property is carried over to what is made of
spans.

- `Symbol.Ordered`, `Node.Ordered`, `Stack.Ordered`: every span of a symbol, of a whole tree, of
  all open nodes is in order.
- `Failure.Ordered`: a failure that is about spans in order, and not about one that is not.
- `Node.cover_eq`: the span of a node can always be widened to cover its children.
-/

namespace Concretion

theorem Span.contains_iff {a b : Span} :
    a.contains b = true ↔ a.start ≤ b.start ∧ b.last ≤ a.last := by
  rw [contains, Bool.and_eq_true, decide_eq_true_eq, decide_eq_true_eq]

namespace Symbol

/-- The span of a symbol is in order. -/
def Ordered (symbol : Symbol) : Prop := symbol.span.Ordered

end Symbol

namespace Node

/-- Every span in a tree is in order, those of the symbols included. -/
def Ordered (node : Node) : Prop :=
  ∀ below ∈ node.preorder, below.span.Ordered ∧ ∀ symbol ∈ below.symbols, symbol.Ordered

theorem preorder_eq (node : Node) : node.preorder = node :: preorderList node.children := by
  obtain ⟨kind, span, children, ownsSemicolon⟩ := node
  rfl

theorem preorderList_eq (nodes : List Node) :
    preorderList nodes = nodes.flatMap Node.preorder := by
  induction nodes with
  | nil => rfl
  | cons node rest ih => rw [preorderList, ih, List.flatMap_cons]

theorem mem_preorderList {node : Node} {nodes : List Node} :
    node ∈ preorderList nodes ↔ ∃ root ∈ nodes, node ∈ root.preorder := by
  induction nodes with
  | nil => simp [preorderList]
  | cons root rest ih => simp [preorderList, ih]

theorem mem_preorder {below node : Node} :
    below ∈ node.preorder ↔ below = node ∨ ∃ child ∈ node.children, below ∈ child.preorder := by
  obtain ⟨kind, span, children, ownsSemicolon⟩ := node
  simp [preorder, mem_preorderList]

/-- The spans of a tree are its own, those of its symbols, and those of its children. -/
theorem ordered_iff {node : Node} :
    node.Ordered ↔ node.span.Ordered ∧ (∀ symbol ∈ node.symbols, symbol.Ordered) ∧
      ∀ child ∈ node.children, child.Ordered := by
  constructor
  · intro h
    have hself := h node (mem_preorder.2 (.inl rfl))
    exact ⟨hself.1, hself.2,
      fun child hc below hb => h below (mem_preorder.2 (.inr ⟨child, hc, hb⟩))⟩
  · rintro ⟨hs, hsym, hc⟩ below hb
    rcases mem_preorder.1 hb with rfl | ⟨child, hmem, hb⟩
    · exact ⟨hs, hsym⟩
    · exact hc child hmem below hb

namespace Ordered

variable {node : Node}

theorem span (h : node.Ordered) : node.span.Ordered := (ordered_iff.1 h).1

theorem symbols (h : node.Ordered) : ∀ symbol ∈ node.symbols, symbol.Ordered :=
  (ordered_iff.1 h).2.1

theorem children (h : node.Ordered) : ∀ child ∈ node.children, child.Ordered :=
  (ordered_iff.1 h).2.2

theorem lastChild (h : node.Ordered) : ∀ child ∈ node.lastChild?, child.Ordered :=
  fun child hc => h.children child (List.mem_of_getLast? hc)

/-- Another flag, another span in order and other children in order make no difference. -/
theorem rebuild (h : node.Ordered) {span : Span} (hs : span.Ordered) {nodes : List Node}
    (hn : ∀ child ∈ nodes, child.Ordered) (flag : Bool) :
    Node.Ordered ⟨node.kind, span, nodes, flag⟩ :=
  ordered_iff.2 ⟨hs, h.symbols, hn⟩

theorem withSemicolon (h : node.Ordered) (flag : Bool) :
    Node.Ordered { node with ownsSemicolon := flag } := h.rebuild h.span h.children flag

theorem withChildren (h : node.Ordered) {nodes : List Node}
    (hn : ∀ child ∈ nodes, child.Ordered) : Node.Ordered { node with children := nodes } :=
  h.rebuild h.span hn _

theorem addChild (h : node.Ordered) {child : Node} (hc : child.Ordered) :
    (node.addChild child).Ordered := by
  refine h.withChildren fun other ho => ?_
  rcases List.mem_append.1 ho with ho | ho
  · exact h.children other ho
  · rw [List.mem_singleton.1 ho]
    exact hc

theorem modifyLastChild (h : node.Ordered) {change : Node → Node}
    (hc : ∀ child ∈ node.lastChild?, (change child).Ordered) :
    (node.modifyLastChild change).Ordered := by
  unfold Node.modifyLastChild
  split
  · next child hlast =>
    refine h.withChildren fun other ho => ?_
    rcases List.mem_append.1 ho with ho | ho
    · exact h.children other (List.dropLast_subset _ ho)
    · rw [List.mem_singleton.1 ho]
      exact hc child hlast
  · exact h

end Ordered

theorem ordered_leaf {kind : NodeKind} {span : Span} (hs : span.Ordered)
    (hk : ∀ symbol ∈ kind.symbols, symbol.Ordered) : (leaf kind span).Ordered :=
  ordered_iff.2 ⟨hs, hk, fun _ h => by cases h⟩

theorem ordered_bare {kind : NodeKind} {span : Span} (hs : span.Ordered)
    (hk : kind.symbols = []) : (leaf kind span).Ordered := by
  refine ordered_leaf hs ?_
  rw [hk]
  exact List.forall_mem_nil _

theorem ordered_single {kind : NodeKind} {span : Span} {symbol : Symbol} (hs : span.Ordered)
    (hk : kind.symbols = [symbol]) (h : symbol.Ordered) : (leaf kind span).Ordered := by
  refine ordered_leaf hs ?_
  rw [hk]
  exact List.forall_mem_singleton.2 h

theorem ordered_empty (offset : Nat) : (empty offset).Ordered :=
  ordered_bare (Span.ordered_point offset) rfl

theorem ordered_elision (offset : Nat) : (elision offset).Ordered :=
  ordered_bare (Span.ordered_point offset) rfl

/-! ## Covering the children -/

/-- Widening a span in order by any others succeeds, and the result is in order. -/
theorem foldlM_merge_eq {span : Span} (hs : span.Ordered) (nodes : List Node) :
    ∃ wide : Span, wide.Ordered ∧
      nodes.foldlM (fun span child => span.merge child.span) span = .ok wide := by
  induction nodes generalizing span with
  | nil => exact ⟨span, hs, rfl⟩
  | cons node rest ih =>
    have hmerge := Span.merge_of_ordered (b := node.span) (.inl hs)
    have hwide : Span.Ordered ⟨min span.start node.span.start, max span.last node.span.last⟩ := by
      simp only [Span.Ordered] at hs ⊢
      omega
    obtain ⟨wide, hw, hfold⟩ := ih hwide
    refine ⟨wide, hw, ?_⟩
    rw [List.foldlM_cons, hmerge]
    exact hfold

theorem cover_eq {node : Node} (hs : node.span.Ordered) :
    ∃ wide : Span, wide.Ordered ∧ node.cover = .ok { node with span := wide } := by
  obtain ⟨wide, hw, hfold⟩ := foldlM_merge_eq hs node.children
  refine ⟨wide, hw, ?_⟩
  rw [cover, hfold]
  rfl

end Node

namespace Stack

/-- Every span of the open nodes is in order. -/
structure Ordered (stack : Stack) : Prop where
  root : stack.root.Ordered
  opened : ∀ node ∈ stack.opened, node.Ordered

namespace Ordered

variable {stack : Stack}

theorem current (h : stack.Ordered) : stack.current.Ordered := by
  unfold Stack.current
  split
  · exact h.root
  · next node outer heq => exact h.opened node (by simp [heq])

theorem lastChild (h : stack.Ordered) : ∀ child ∈ stack.lastChild?, child.Ordered :=
  h.current.lastChild

theorem modifyCurrent (h : stack.Ordered) {change : Node → Node}
    (hc : (change stack.current).Ordered) : (stack.modifyCurrent change).Ordered := by
  obtain ⟨root, opened⟩ := stack
  cases opened with
  | nil => exact ⟨hc, fun _ hmem => by cases hmem⟩
  | cons node outer =>
    refine ⟨h.root, fun other hmem => ?_⟩
    rcases List.mem_cons.1 hmem with rfl | hmem
    · exact hc
    · exact h.opened other (List.mem_cons_of_mem _ hmem)

theorem push (h : stack.Ordered) {node : Node} (hn : node.Ordered) : (stack.push node).Ordered := by
  refine ⟨h.root, fun other hmem => ?_⟩
  rcases List.mem_cons.1 hmem with rfl | hmem
  · exact hn
  · exact h.opened other hmem

end Ordered

end Stack

namespace Failure

/-- The failure is not about a span out of order, and the spans that it reports are in order. -/
def Ordered : Failure → Prop
  | unsupportedUnary _ span | unsupportedBinary _ span => span.Ordered
  | shape _ _ span => ∀ reported ∈ span, reported.Ordered
  | missing _ | badRange .. => True
  | reversed _ => False

theorem ordered_shape {context : String} {fault : ShapeFault} {span : Span} (h : span.Ordered) :
    (shape context fault (some span)).Ordered := by
  intro reported hreported
  cases hreported
  exact h

end Failure

namespace Stack

theorem Ordered.fault {stack : Stack} (h : stack.Ordered) (fault : ShapeFault) :
    (stack.fault fault).Ordered :=
  Failure.ordered_shape h.current.span

end Stack

end Concretion
