import Concretion.Proofs.WellLaid

/-!
# Walks through trees

A walk keeps the trees that are still to come on a stack. It takes the root of the tree on top and
puts the children in its place, in reverse, so that the first child is on top. What is still to come
can be told at any time without walking on: it is what the recursion on trees lists for the trees on
the stack, from the top down. A step takes the first of these nodes and leaves the others to come,
and so a whole walk takes all of them in this order, whatever is on the stack at first.

- `Node.Traversal.Yields`: the nodes that are taken until none is left, one step after another.
- `Node.Traversal.coming`: the nodes that are still to come, said without steps.
- `Node.Traversal.coming_of_next?`: what a step does to them.
- `Node.Traversal.yields_iff`: every walk comes to an end, and has then taken what was to come.
- `Node.located`: the nodes of a tree along with the paths that lead to them. The paths are in
  dictionary order, so that a node is in front of all that is below it.
- `Node.descendants_are_preorder`: the walk through a tree takes what the recursion lists, which is
  every node once, and none behind one that is below it.
-/

namespace Concretion

namespace Node

/-! ## Steps and runs -/

theorem preorderList_append (nodes others : List Node) :
    preorderList (nodes ++ others) = preorderList nodes ++ preorderList others := by
  simp [preorderList_eq]

namespace Traversal

variable {traversal later : Traversal} {node : Node} {nodes : List Node}

/-- The nodes that are taken from now on until there is none left. Only a walk that comes to an end
has such a list. -/
inductive Yields : Traversal → List Node → Prop where
  | done {traversal : Traversal} (hnext : traversal.next? = none) : Yields traversal []
  | more {traversal later : Traversal} {node : Node} {nodes : List Node}
    (hnext : traversal.next? = some (node, later)) (hlater : Yields later nodes) :
    Yields traversal (node :: nodes)

/-- The nodes of the pending trees, that of the next tree first. -/
def coming (traversal : Traversal) : List Node := preorderList traversal.pending.reverse

theorem coming_of_next?_eq_none (h : traversal.next? = none) : traversal.coming = [] := by
  rw [coming, next?_eq_none_iff.1 h]
  rfl

/-- A step takes the first node that is to come, and leaves the others to come in their order. -/
theorem coming_of_next? (h : traversal.next? = some (node, later)) :
    traversal.coming = node :: later.coming := by
  obtain ⟨front, rfl, rfl⟩ := next?_eq_some_iff.1 h
  calc preorderList (front ++ [node]).reverse
      = node.preorder ++ preorderList front.reverse := by simp [preorderList]
    _ = node :: (preorderList node.children ++ preorderList front.reverse) := by
        rw [preorder_eq, List.cons_append]
    _ = node :: preorderList (front ++ node.children.reverse).reverse := by
        simp [preorderList_append]

/-- A walk that has come to an end has taken what was to come, by induction on its steps. -/
theorem Yields.eq_coming (h : traversal.Yields nodes) : nodes = traversal.coming := by
  induction h with
  | done hnext => rw [coming_of_next?_eq_none hnext]
  | more hnext hlater ih => rw [coming_of_next? hnext, ih]

/-- Every walk comes to an end. Each step leaves fewer nodes to come, though it may well leave more
trees. -/
theorem yields_toList (traversal : Traversal) : traversal.Yields traversal.toList := by
  fun_induction toList traversal with
  | case1 traversal node later hnext ih => exact .more hnext ih
  | case2 traversal hnext => exact .done hnext

theorem toList_eq_coming (traversal : Traversal) : traversal.toList = traversal.coming :=
  traversal.yields_toList.eq_coming

theorem yields_iff : traversal.Yields nodes ↔ nodes = traversal.coming := by
  constructor
  · exact Yields.eq_coming
  · rintro rfl
    rw [← toList_eq_coming]
    exact traversal.yields_toList

end Traversal

theorem coming_traversal (node : Node) : node.traversal.coming = node.preorder := by
  simp [Traversal.coming, traversal, preorderList]

/-! ## Nodes and their paths -/

mutual

/-- The node and then the nodes below it, child by child, with the paths that lead to them. -/
def located : Node → List (List Nat × Node)
  | ⟨kind, span, children, ownsSemicolon⟩ =>
    ([], ⟨kind, span, children, ownsSemicolon⟩) :: locatedList 0 children

/-- The nodes of several trees. Their paths begin with the numbers of the trees, of which the first
is given. -/
def locatedList (number : Nat) : List Node → List (List Nat × Node)
  | [] => []
  | node :: rest =>
    node.located.map (fun place => (number :: place.1, place.2)) ++ locatedList (number + 1) rest

end

theorem located_eq (node : Node) : node.located = ([], node) :: locatedList 0 node.children := by
  obtain ⟨kind, span, children, ownsSemicolon⟩ := node
  rfl

mutual

theorem map_snd_located : (node : Node) → node.located.map Prod.snd = node.preorder
  | ⟨kind, span, children, ownsSemicolon⟩ => by
    rw [located, preorder, List.map_cons, map_snd_locatedList 0 children]

theorem map_snd_locatedList (number : Nat) :
    (nodes : List Node) → (locatedList number nodes).map Prod.snd = preorderList nodes
  | [] => rfl
  | node :: rest => by
    rw [locatedList, preorderList, List.map_append, List.map_map,
      map_snd_locatedList (number + 1) rest, ← map_snd_located node]
    rfl

end

theorem mem_locatedList {number : Nat} {nodes : List Node} {path : List Nat} {below : Node} :
    (path, below) ∈ locatedList number nodes ↔ ∃ i rest child,
      path = (number + i) :: rest ∧ nodes[i]? = some child ∧ (rest, below) ∈ child.located := by
  induction nodes generalizing number with
  | nil => simp [locatedList]
  | cons node nodes ih =>
    rw [locatedList, List.mem_append, ih]
    constructor
    · rintro (h | ⟨i, rest, child, rfl, hchild, hmem⟩)
      · obtain ⟨⟨rest, _⟩, hmem, heq⟩ := List.mem_map.1 h
        obtain ⟨rfl, rfl⟩ := Prod.mk.inj heq
        exact ⟨0, rest, node, rfl, rfl, hmem⟩
      · exact ⟨i + 1, rest, child, by rw [Nat.add_right_comm]; rfl, hchild, hmem⟩
    · rintro ⟨i, rest, child, rfl, hchild, hmem⟩
      cases i with
      | zero =>
        obtain rfl : node = child := by simpa using hchild
        exact .inl (List.mem_map.2 ⟨(rest, below), hmem, rfl⟩)
      | succ i =>
        exact .inr ⟨i, rest, child, by rw [Nat.add_right_comm]; rfl, by simpa using hchild, hmem⟩

/-- A path is listed just if it leads somewhere, and along with what it leads to. -/
theorem mem_located {node below : Node} {path : List Nat} :
    (path, below) ∈ node.located ↔ node.at? path = some below := by
  induction path generalizing node with
  | nil =>
    rw [located_eq, List.mem_cons, mem_locatedList]
    simp [at?, eq_comm]
  | cons i path ih =>
    rw [located_eq, List.mem_cons, mem_locatedList]
    simp [at?, ih, Option.bind_eq_some_iff]

mutual

theorem pairwise_located : (node : Node) →
    node.located.Pairwise fun a b => List.Lex (· < ·) a.1 b.1
  | ⟨kind, span, children, ownsSemicolon⟩ => by
    rw [located, List.pairwise_cons]
    refine ⟨?_, pairwise_locatedList 0 children⟩
    rintro ⟨path, below⟩ hmem
    obtain ⟨i, rest, -, rfl, -, -⟩ := mem_locatedList.1 hmem
    exact .nil

theorem pairwise_locatedList (number : Nat) : (nodes : List Node) →
    (locatedList number nodes).Pairwise fun a b => List.Lex (· < ·) a.1 b.1
  | [] => .nil
  | node :: rest => by
    rw [locatedList, List.pairwise_append, List.pairwise_map]
    refine ⟨(pairwise_located node).imp .cons, pairwise_locatedList (number + 1) rest, ?_⟩
    -- what is in the first tree has a smaller first number
    rintro ⟨path, below⟩ hmem ⟨path', below'⟩ hmem'
    obtain ⟨place, -, heq⟩ := List.mem_map.1 hmem
    obtain ⟨rfl, -⟩ := Prod.mk.inj heq
    obtain ⟨i, later, -, rfl, -, -⟩ := mem_locatedList.1 hmem'
    exact .rel (by omega)

end

/-- A path does not come before one that it continues, nor before itself. -/
theorem not_prefix_of_lex {path later : List Nat} (h : List.Lex (· < ·) path later) :
    ¬ later <+: path := by
  induction h with
  | nil => simp
  | rel hlt =>
    rw [List.cons_prefix_cons]
    omega
  | cons _ ih =>
    rw [List.cons_prefix_cons]
    exact fun h => ih h.2

/-- The walk through a tree comes to an end, and takes the nodes that the recursion on the tree
lists, in its order. What each path leads to is among them once, and in front of what the paths that
continue it lead to. -/
theorem descendants_are_preorder (root : Node) :
    (∀ nodes, root.traversal.Yields nodes ↔ nodes = root.preorder) ∧
      root.descendants = root.preorder ∧
      root.located.map Prod.snd = root.descendants ∧
      (∀ path node, (path, node) ∈ root.located ↔ root.at? path = some node) ∧
      (root.located.map Prod.fst).Nodup ∧
      root.located.Pairwise fun earlier later => ¬ later.1 <+: earlier.1 := by
  have hdescendants : root.descendants = root.preorder := by
    rw [descendants, Traversal.toList_eq_coming, coming_traversal]
  have hordered : root.located.Pairwise fun earlier later => ¬ later.1 <+: earlier.1 :=
    (pairwise_located root).imp not_prefix_of_lex
  refine ⟨?_, hdescendants, ?_, ?_, ?_, hordered⟩
  · intro nodes
    rw [Traversal.yields_iff, coming_traversal]
  · rw [map_snd_located, hdescendants]
  · intro path node
    exact mem_located
  · -- no path is a part of an earlier one, so none is an earlier one
    rw [List.Nodup, List.pairwise_map]
    refine hordered.imp ?_
    intro earlier later hnot heq
    rw [heq] at hnot
    exact hnot List.prefix_rfl

/-- A statement with a call in a group, a placeholder and a call. -/
example : sampleTree.descendants.map start = [0, 0, 1, 4, 6] := by cbv

end Node

end Concretion
