import Concretion.Recovery.Failure

/-!
# The stack of open nodes

While a concrete tree grows, the nodes on the way from the root to the place of growth are open.
The root is at the bottom and is never closed; the innermost open node takes new children.

- `Stack`: the root and the open nodes above it.
- `Stack.push`, `Stack.pop`, `Stack.attach`: opening, closing, and growing.
- `Stack.replaceChild`, `Stack.wrapChild`, `Stack.groupLastChild`, `Stack.reorder`: changes to the
  children of the innermost open node. Each either succeeds or leaves everything as it was.
- `Stack.markEach`, `Stack.takeEach`: the two passes of a reordering. The first one finds out
  whether each place is named once (`Stack.isPermutation_iff`), and if so the second one finds every
  child (`Stack.reorder_eq`).
- `Stack.finish`: the root, once nothing is open above it.
-/

namespace Concretion

/-- The root of a growing tree, and the nodes open above it, innermost first. -/
structure Stack where
  root : Node
  opened : List Node
  deriving Repr, Inhabited

namespace Stack

/-- Nothing is open but the root. -/
def ofRoot (root : Node) : Stack := ⟨root, []⟩

/-- The number of nodes open above the root. -/
def depth (stack : Stack) : Nat := stack.opened.length

/-- The innermost open node. -/
def current (stack : Stack) : Node :=
  match stack.opened with
  | [] => stack.root
  | node :: _ => node

/-- Changes the innermost open node. -/
def modifyCurrent (stack : Stack) (change : Node → Node) : Stack :=
  match stack.opened with
  | [] => { stack with root := change stack.root }
  | node :: outer => { stack with opened := change node :: outer }

/-- Opens a node. -/
def push (stack : Stack) (node : Node) : Stack := { stack with opened := node :: stack.opened }

/-- Closes the innermost open node. The root cannot be closed. -/
def pop (stack : Stack) : Except Failure (Node × Stack) :=
  match stack.opened with
  | [] => .error (.shape "ParseRoot" .rootClosed none)
  | node :: outer => .ok (node, { stack with opened := outer })

/-- Appends a child to the innermost open node. -/
def attach (stack : Stack) (node : Node) : Stack := stack.modifyCurrent (·.addChild node)

/-- The last child of the innermost open node. -/
def lastChild? (stack : Stack) : Option Node := stack.current.lastChild?

/-- Where the gap in front of the next child begins: behind the last child, or at the start of the
open node. A placeholder takes no room. -/
def gapStart (stack : Stack) : Nat :=
  match stack.lastChild? with
  | some child => if child.isPlaceholder then child.last else child.last + 1
  | none => stack.current.start

/-- The children of the innermost open node. -/
def children (stack : Stack) : List Node := stack.current.children

/-- Gives the innermost open node other children. -/
def setChildren (stack : Stack) (children : List Node) : Stack :=
  stack.modifyCurrent fun node => { node with children := children }

/-- A fault of the innermost open node. -/
def fault (stack : Stack) (fault : ShapeFault) : Failure :=
  .shape stack.current.kind.name fault (some stack.current.span)

/-- Puts a node in the place of a child, and returns that child. -/
def replaceChild (stack : Stack) (index : Nat) (node : Node) : Except Failure (Node × Stack) :=
  match stack.current.replaceChild? index node with
  | some (old, changed) => .ok (old, stack.modifyCurrent fun _ => changed)
  | none => .error (stack.fault (.noChild index))

/-- Moves a child under a wrapper, which takes its place. -/
def wrapChild (stack : Stack) (index : Nat) (wrapper : Node) : Except Failure Stack :=
  match stack.current.removeChild? index with
  | some (child, without) =>
    .ok (stack.modifyCurrent fun _ => without.insertChild index (wrapper.addChild child))
  | none => .error (stack.fault (.noChildToWrap index))

/-- Wraps the last child in a group of the same span. -/
def groupLastChild (stack : Stack) : Except Failure Stack :=
  match stack.lastChild? with
  | some child => stack.wrapChild (stack.current.childCount - 1) (.leaf .group child.span)
  | none => .error (stack.fault .noOperand)

/-- Marks the given places one after the other. Fails at a place that there is not, or that has been
marked already. -/
def markEach : List Nat → List Bool → Bool
  | [], _ => true
  | place :: rest, marked =>
    match marked[place]? with
    | some false => markEach rest (marked.set place true)
    | _ => false

/-- Are these the numbers below `count`, each once? -/
def isPermutation (permutation : List Nat) (count : Nat) : Bool :=
  permutation.length == count && markEach permutation (List.replicate count false)

/-- Takes nodes out of the given slots, one after the other. An empty slot gives nothing. -/
def takeEach : List Nat → List (Option Node) → List Node
  | [], _ => []
  | slot :: rest, slots =>
    match slots[slot]? with
    | some (some node) => node :: takeEach rest (slots.set slot none)
    | _ => takeEach rest slots

/-- Reorders the children: the child at place `i` is then the one that was at place
`permutation[i]`. -/
def reorder (stack : Stack) (permutation : List Nat) : Except Failure Stack :=
  let children := stack.children
  if isPermutation permutation children.length then
    .ok (stack.setChildren (takeEach permutation (children.map some)))
  else .error (stack.fault (.notAPermutation children.length permutation))

theorem markEach_iff {permutation : List Nat} {marked : List Bool} :
    markEach permutation marked = true ↔
      (∀ place ∈ permutation, marked[place]? = some false) ∧ permutation.Nodup := by
  -- The marks that have been set change along the list, so the statement is about any marks.
  induction permutation generalizing marked with
  | nil => simp [markEach]
  | cons place rest ih =>
    rw [markEach, List.nodup_cons, List.forall_mem_cons]
    split
    · next hplace =>
      obtain ⟨hlt, -⟩ := List.getElem?_eq_some_iff.1 hplace
      rw [ih]
      constructor
      · rintro ⟨hrest, hnodup⟩
        -- The place is marked from here on, so it cannot be met again.
        have hnew : place ∉ rest := fun hmem => by simpa [hlt] using hrest place hmem
        refine ⟨⟨hplace, fun other hother => ?_⟩, hnew, hnodup⟩
        have hne : place ≠ other := fun heq => hnew (heq ▸ hother)
        rw [← hrest other hother, List.getElem?_set_ne hne]
      · rintro ⟨⟨-, hrest⟩, hnew, hnodup⟩
        refine ⟨fun other hother => ?_, hnodup⟩
        have hne : place ≠ other := fun heq => hnew (heq ▸ hother)
        rw [List.getElem?_set_ne hne, hrest other hother]
    · next hplace =>
      constructor
      · rintro ⟨⟩
      · rintro ⟨⟨hfalse, -⟩, -⟩
        exact absurd hfalse hplace

theorem isPermutation_iff {permutation : List Nat} {count : Nat} :
    isPermutation permutation count = true ↔
      permutation.length = count ∧ (∀ index ∈ permutation, index < count) ∧
        permutation.Nodup := by
  rw [isPermutation, Bool.and_eq_true, beq_iff_eq, markEach_iff]
  simp [List.getElem?_replicate]

/-- Where no slot is named twice, each holds its node still when its turn comes. -/
theorem takeEach_eq {permutation : List Nat} {slots : List (Option Node)} {nodes : List Node}
    (hnodup : permutation.Nodup)
    (h : ∀ slot ∈ permutation, slots[slot]? = nodes[slot]?.map some) :
    takeEach permutation slots = permutation.filterMap (nodes[·]?) := by
  induction permutation generalizing slots with
  | nil => rfl
  | cons slot rest ih =>
    obtain ⟨hnew, hnodup⟩ := List.nodup_cons.1 hnodup
    obtain ⟨hslot, hrest⟩ := List.forall_mem_cons.1 h
    rw [takeEach, List.filterMap_cons, hslot]
    cases nodes[slot]? with
    | none => exact ih hnodup hrest
    | some node =>
      refine congrArg (node :: ·) (ih hnodup fun other hother => ?_)
      have hne : slot ≠ other := fun heq => hnew (heq ▸ hother)
      rw [List.getElem?_set_ne hne, hrest other hother]

theorem reorder_eq (stack : Stack) (permutation : List Nat) :
    stack.reorder permutation =
      if isPermutation permutation stack.children.length then
        .ok (stack.setChildren (permutation.filterMap (stack.children[·]?)))
      else .error (stack.fault (.notAPermutation stack.children.length permutation)) := by
  rw [reorder]
  split
  · next h => rw [takeEach_eq (isPermutation_iff.1 h).2.2 fun _ _ => List.getElem?_map]
  · rfl

/-- The root. Fails while a node is open above it. -/
def finish (stack : Stack) : Except Failure Node :=
  match stack.opened with
  | [] => .ok stack.root
  | _ :: _ => .error (stack.fault (.stillOpen stack.depth))

end Stack

end Concretion
