import Concretion.Concrete.Kind

/-!
# Concrete trees

A node of a concrete tree has a kind, the span it covers, and its children in the order of the
text. A node may own the semicolon that ends it.

- `Node`: the trees, with `Node.leaf`, `Node.empty` and `Node.elision` as constructors for nodes
  without children.
- `Node.addChild`, `Node.insertChild`, `Node.replaceChild?`, `Node.removeChild?`, `Node.popChild?`:
  changes to the children.
- `Node.Traversal`: a walk through a tree by a stack of pending subtrees. `Node.Traversal.next?`
  takes one node, and `Node.descendants` are all that it takes.
- `Node.preorder`: the same list by recursion on the tree.
-/

namespace Concretion

/-- A node of a concrete tree. -/
structure Node where
  kind : NodeKind
  span : Span
  children : List Node
  /-- Whether the semicolon that ends the node belongs to it. -/
  ownsSemicolon : Bool
  deriving Repr, Inhabited

namespace Node

/-- A node without children. -/
def leaf (kind : NodeKind) (span : Span) : Node := ⟨kind, span, [], false⟩

/-- A node with children. -/
def branch (kind : NodeKind) (span : Span) (children : List Node) : Node :=
  ⟨kind, span, children, false⟩

/-- The placeholder of an absent clause. -/
def empty (offset : Nat) : Node := leaf .empty (Span.point offset)

/-- The placeholder of an element left out. -/
def elision (offset : Nat) : Node := leaf .elision (Span.point offset)

/-- The offset of the first byte of a node. -/
def start (node : Node) : Nat := node.span.start

/-- The offset of the last byte of a node. -/
def last (node : Node) : Nat := node.span.last

/-- Does the node stand for an absent part? -/
def isPlaceholder (node : Node) : Bool := node.kind.isPlaceholder

/-- The symbols that the node owns. -/
def symbols (node : Node) : List Symbol := node.kind.symbols

/-! ## Equality -/

mutual

/-- Are the trees equal? -/
def beq : Node → Node → Bool
  | ⟨kind, span, children, ownsSemicolon⟩, ⟨kind', span', children', ownsSemicolon'⟩ =>
    kind == kind' && span == span' && ownsSemicolon == ownsSemicolon' &&
      beqList children children'

/-- Are the trees equal, one by one? -/
def beqList : List Node → List Node → Bool
  | [], [] => true
  | node :: rest, node' :: rest' => node.beq node' && beqList rest rest'
  | _, _ => false

end

instance : BEq Node := ⟨beq⟩

/-! ## Children -/

/-- The number of children. -/
def childCount (node : Node) : Nat := node.children.length

/-- The last child. -/
def lastChild? (node : Node) : Option Node := node.children.getLast?

/-- Appends a child. -/
def addChild (node : Node) (child : Node) : Node :=
  { node with children := node.children ++ [child] }

/-- Puts a child in front of the one with the given index, or at the end if there is none. -/
def insertChild (node : Node) (index : Nat) (child : Node) : Node :=
  { node with children := node.children.take index ++ child :: node.children.drop index }

/-- Puts a child in the place of the one with the given index, and returns that one too. -/
def replaceChild? (node : Node) (index : Nat) (child : Node) : Option (Node × Node) :=
  node.children[index]?.map fun old =>
    (old, { node with children := node.children.set index child })

/-- Takes out the child with the given index. -/
def removeChild? (node : Node) (index : Nat) : Option (Node × Node) :=
  node.children[index]?.map fun old =>
    (old, { node with children := node.children.eraseIdx index })

/-- Takes out the last child. -/
def popChild? (node : Node) : Option (Node × Node) :=
  node.lastChild?.map fun old => (old, { node with children := node.children.dropLast })

/-- Changes the last child, if there is one. -/
def modifyLastChild (node : Node) (change : Node → Node) : Node :=
  match node.children.getLast? with
  | some child => { node with children := node.children.dropLast ++ [change child] }
  | none => node

/-- The least interval around the node and its children becomes the span of the node. -/
def cover (node : Node) : Except Span.Reversed Node := do
  let span ← node.children.foldlM (fun span child => span.merge child.span) node.span
  pure { node with span := span }

/-! ## Descendants -/

mutual

/-- The number of nodes in a tree. -/
def size : Node → Nat
  | ⟨_, _, children, _⟩ => sizeList children + 1

/-- The number of nodes in several trees. -/
def sizeList : List Node → Nat
  | [] => 0
  | node :: rest => node.size + sizeList rest

end

theorem sizeList_append (a b : List Node) : sizeList (a ++ b) = sizeList a + sizeList b := by
  induction a with
  | nil => simp [sizeList]
  | cons node rest ih => simp [sizeList, ih, Nat.add_assoc]

theorem sizeList_reverse (nodes : List Node) : sizeList nodes.reverse = sizeList nodes := by
  induction nodes with
  | nil => rfl
  | cons node rest ih => simp [sizeList, sizeList_append, ih, Nat.add_comm]

/-- A walk through trees that is under way: the trees that are still to come, the next one last. -/
structure Traversal where
  pending : List Node
  deriving Repr, Inhabited

namespace Traversal

variable {traversal later : Traversal} {node : Node}

/-- Takes the next node. Its children are left in its place, the first one of them last. -/
def next? (traversal : Traversal) : Option (Node × Traversal) :=
  traversal.pending.getLast?.map fun node =>
    (node, ⟨traversal.pending.dropLast ++ node.children.reverse⟩)

theorem next?_eq_none_iff : traversal.next? = none ↔ traversal.pending = [] := by
  simp [next?]

theorem next?_eq_some_iff : traversal.next? = some (node, later) ↔
    ∃ front, traversal = ⟨front ++ [node]⟩ ∧ later = ⟨front ++ node.children.reverse⟩ := by
  constructor
  · intro h
    simp only [next?, Option.map_eq_some_iff, Prod.mk.injEq] at h
    obtain ⟨_, hlast, rfl, rfl⟩ := h
    obtain ⟨front, hfront⟩ := List.getLast?_eq_some_iff.1 hlast
    exact ⟨front, congrArg mk hfront, by simp [hfront]⟩
  · rintro ⟨front, rfl, rfl⟩
    simp [next?]

/-- The number of nodes that are still to come. -/
def size (traversal : Traversal) : Nat := sizeList traversal.pending

/-- Each node that is taken is one node less to come, though there may be more trees than before. -/
theorem size_of_next? (h : traversal.next? = some (node, later)) :
    traversal.size = later.size + 1 := by
  obtain ⟨front, rfl, rfl⟩ := next?_eq_some_iff.1 h
  obtain ⟨kind, span, children, ownsSemicolon⟩ := node
  simp only [size, sizeList_append, sizeList_reverse, sizeList, Node.size]
  omega

/-- All nodes that are still to come, as they are taken one after another. -/
def toList (traversal : Traversal) : List Node :=
  match _ : traversal.next? with
  | some (node, later) => node :: later.toList
  | none => []
termination_by traversal.size
decreasing_by
  have hsize := size_of_next? ‹_›
  omega

end Traversal

/-- The walk through a tree, from its root on. -/
def traversal (node : Node) : Traversal := ⟨[node]⟩

/-- The node and everything below it, as the walk comes to it. -/
def descendants (node : Node) : List Node := node.traversal.toList

mutual

/-- The node, and then the nodes below it, child by child. -/
def preorder : Node → List Node
  | ⟨kind, span, children, ownsSemicolon⟩ =>
    ⟨kind, span, children, ownsSemicolon⟩ :: preorderList children

/-- The nodes of several trees, tree by tree. -/
def preorderList : List Node → List Node
  | [] => []
  | node :: rest => node.preorder ++ preorderList rest

end

end Node

end Concretion
