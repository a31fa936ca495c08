import Concretion.Recovery.Session
import Mathlib.Data.List.Infix
import Mathlib.Data.List.Perm.Subperm

/-!
# What a recovery leaves alone

The recovery of a construct adds to the innermost open node and to nothing else. Two relations say
so, and both compose.

- `Stack.Frame`: a stack with the same nodes open, of which only the innermost one has changed, and
  that one only in its children. Below a node that was opened on purpose the children may change
  at will; elsewhere they are kept, but for the last.
- `Stack.replaceChild_eq`, `Stack.wrapChild_eq`, `Stack.perm_of_isPermutation`: what is made of the
  children of the innermost open node when one of them is replaced or wrapped, or all are reordered.
- `Shelf.pending`: the deferred nodes. A node that is put on the shelf and taken back leaves no
  trace there (`Shelf.take_put`).
- `ShapeFault.concernsCursor`: the faults of a recovery that has lost track of what is open or
  deferred.
-/

namespace Concretion

/-! ## Children of the innermost open node -/

/-- What is put in the place of a child that was taken out is where that child was. -/
theorem Node.insertChild_of_removeChild {node without child : Node} {index : Nat}
    (h : node.removeChild? index = some (child, without)) (made : Node) :
    without.insertChild index made = { node with children := node.children.set index made } := by
  obtain ⟨old, hold, heq⟩ := Option.map_eq_some_iff.1 h
  cases heq
  obtain ⟨hlt, -⟩ := List.getElem?_eq_some_iff.1 hold
  have hlength : (node.children.take index).length = index := by
    rw [List.length_take]
    omega
  simp only [insertChild, List.eraseIdx_eq_take_drop_succ,
    List.set_eq_take_append_cons_drop, if_pos hlt]
  rw [List.take_append_of_le_length (by omega), List.take_take, Nat.min_self,
    List.drop_append_of_le_length (by omega), List.drop_take]
  simp

namespace Stack

@[simp] theorem children_setChildren (stack : Stack) (nodes : List Node) :
    (stack.setChildren nodes).children = nodes := by
  obtain ⟨root, _ | ⟨inner, outer⟩⟩ := stack <;> rfl

@[simp] theorem setChildren_children (stack : Stack) :
    stack.setChildren stack.children = stack := by
  obtain ⟨⟨_, _, _, _⟩, _ | ⟨⟨_, _, _, _⟩, outer⟩⟩ := stack <;> rfl

@[simp] theorem setChildren_setChildren (stack : Stack) (nodes other : List Node) :
    (stack.setChildren nodes).setChildren other = stack.setChildren other := by
  obtain ⟨root, _ | ⟨inner, outer⟩⟩ := stack <;> rfl

theorem attach_eq_setChildren (stack : Stack) (node : Node) :
    stack.attach node = stack.setChildren (stack.children ++ [node]) := by
  obtain ⟨root, _ | ⟨inner, outer⟩⟩ := stack <;> rfl

theorem replaceLast_eq_setChildren {stack : Stack} {node : Node} (made : Node)
    (h : stack.lastChild? = some node) :
    stack.modifyCurrent (·.modifyLastChild fun _ => made) =
      stack.setChildren (stack.children.dropLast ++ [made]) := by
  have hlast : stack.children.getLast? = some node := h
  obtain ⟨root, _ | ⟨inner, outer⟩⟩ := stack <;>
    simp only [children, current] at hlast <;>
    simp only [modifyCurrent, setChildren, Node.modifyLastChild, hlast] <;> rfl

theorem modifyCurrent_eq_setChildren (stack : Stack) (nodes : List Node) :
    stack.modifyCurrent (fun _ => { stack.current with children := nodes }) =
      stack.setChildren nodes := by
  obtain ⟨root, _ | ⟨inner, outer⟩⟩ := stack <;> rfl

theorem replaceChild_eq {stack : Stack} {index : Nat} {old : Node}
    (h : stack.children[index]? = some old) (node : Node) :
    stack.replaceChild index node =
      .ok (old, stack.setChildren (stack.children.set index node)) := by
  have hreplace : stack.current.replaceChild? index node =
      some (old, { stack.current with children := stack.children.set index node }) :=
    Option.map_eq_some_iff.2 ⟨old, h, rfl⟩
  rw [replaceChild, hreplace]
  exact congrArg (fun changed => Except.ok (old, changed)) (modifyCurrent_eq_setChildren stack _)

theorem wrapChild_eq {stack : Stack} {index : Nat} {child : Node}
    (h : stack.children[index]? = some child) (wrapper : Node) :
    stack.wrapChild index wrapper =
      .ok (stack.setChildren (stack.children.set index (wrapper.addChild child))) := by
  obtain ⟨without, hremove⟩ :
      ∃ without, stack.current.removeChild? index = some (child, without) :=
    ⟨_, Option.map_eq_some_iff.2 ⟨child, h, rfl⟩⟩
  rw [wrapChild, hremove]
  dsimp only
  rw [Node.insertChild_of_removeChild hremove]
  exact congrArg Except.ok (modifyCurrent_eq_setChildren stack _)

/-- A child that has been wrapped was there, and the others have stayed where they were. -/
theorem of_wrapChild {stack made : Stack} {index : Nat} {wrapper : Node}
    (h : stack.wrapChild index wrapper = .ok made) :
    ∃ child, stack.children[index]? = some child ∧
      made = stack.setChildren (stack.children.set index (wrapper.addChild child)) := by
  cases hchild : stack.children[index]? with
  | none =>
    have hremove : stack.current.removeChild? index = none := Option.map_eq_none_iff.2 hchild
    rw [wrapChild, hremove] at h
    cases h
  | some child =>
    rw [wrapChild_eq hchild] at h
    cases h
    exact ⟨child, rfl, rfl⟩

/-! ## Reordered children -/

/-- The test of a reordering accepts the permutations of the places, and nothing else. -/
theorem isPermutation_iff_perm {permutation : List Nat} {count : Nat} :
    isPermutation permutation count = true ↔ permutation.Perm (List.range count) := by
  rw [isPermutation_iff]
  constructor
  · rintro ⟨hlength, hbound, hnodup⟩
    refine (List.subperm_of_subset hnodup fun index hmem => ?_).perm_of_length_le ?_
    · exact List.mem_range.2 (hbound index hmem)
    · rw [List.length_range, hlength]
  · intro hperm
    refine ⟨?_, fun index hmem => ?_, hperm.nodup_iff.2 List.nodup_range⟩
    · rw [hperm.length_eq, List.length_range]
    · exact List.mem_range.1 (hperm.subset hmem)

theorem filterMap_range (nodes : List Node) :
    (List.range nodes.length).filterMap (nodes[·]?) = nodes := by
  induction nodes with
  | nil => rfl
  | cons node rest ih =>
    rw [List.length_cons, List.range_succ_eq_map, List.filterMap_cons, List.filterMap_map]
    exact congrArg (node :: ·) ih

/-- No child is lost in a reordering, and none is there twice. -/
theorem perm_of_isPermutation {permutation : List Nat} {nodes : List Node}
    (h : isPermutation permutation nodes.length = true) :
    (permutation.filterMap (nodes[·]?)).Perm nodes := by
  have hnodes := (isPermutation_iff_perm.1 h).filterMap (nodes[·]?)
  rwa [filterMap_range] at hnodes

/-- The child at each place is the one that was at the place that the permutation names. -/
theorem getElem?_permuted {permutation : List Nat} {nodes : List Node}
    (h : ∀ index ∈ permutation, index < nodes.length) (place : Nat) :
    (permutation.filterMap (nodes[·]?))[place]? = permutation[place]?.bind (nodes[·]?) := by
  induction permutation generalizing place with
  | nil => rfl
  | cons first rest ih =>
    obtain ⟨hfirst, hrest⟩ := List.forall_mem_cons.1 h
    rw [List.filterMap_cons, List.getElem?_eq_getElem hfirst]
    cases place with
    | zero => exact (List.getElem?_eq_getElem hfirst).symm
    | succ place => exact ih hrest place

/-! ## Frames -/

/-- The same nodes are open before and after, and only the children of the innermost one have
changed. Unless it is `inner` to the construct recovered, its children are all there still, and
none but the last has changed. -/
structure Frame (inner : Bool) (before after : Stack) : Prop where
  depth : after.depth = before.depth
  outer : after.opened.tail = before.opened.tail
  root : before.opened ≠ [] → after.root = before.root
  kind : after.current.kind = before.current.kind
  span : after.current.span = before.current.span
  ownsSemicolon : after.current.ownsSemicolon = before.current.ownsSemicolon
  children : inner = false → before.children.dropLast <+: after.children
  childCount : inner = false → before.children.length ≤ after.children.length

namespace Frame

variable {inner : Bool} {a b c : Stack}

theorem refl (stack : Stack) : Frame inner stack stack where
  depth := rfl
  outer := rfl
  root _ := rfl
  kind := rfl
  span := rfl
  ownsSemicolon := rfl
  children _ := List.dropLast_prefix _
  childCount _ := Nat.le_refl _

/-- What is kept of the children but for the last is also kept by a further change. -/
theorem dropLast_prefix {xs ys zs : List Node} (hxy : xs.dropLast <+: ys)
    (hle : xs.length ≤ ys.length) (hyz : ys.dropLast <+: zs) : xs.dropLast <+: zs := by
  have hshort : xs.dropLast.length ≤ ys.dropLast.length := by
    simp only [List.length_dropLast]
    omega
  have hpre : xs.dropLast <+: ys.dropLast :=
    List.prefix_of_prefix_length_le hxy (List.dropLast_prefix ys) hshort
  exact hpre.trans hyz

theorem trans (hab : Frame inner a b) (hbc : Frame inner b c) : Frame inner a c where
  depth := hbc.depth.trans hab.depth
  outer := hbc.outer.trans hab.outer
  root hne := by
    have hne' : b.opened ≠ [] := by
      intro hnil
      have hlength := hab.depth
      simp only [Stack.depth, hnil, List.length_nil] at hlength
      exact hne (List.length_eq_zero_iff.1 hlength.symm)
    exact (hbc.root hne').trans (hab.root hne)
  kind := hbc.kind.trans hab.kind
  span := hbc.span.trans hab.span
  ownsSemicolon := hbc.ownsSemicolon.trans hab.ownsSemicolon
  children hi := dropLast_prefix (hab.children hi) (hab.childCount hi) (hbc.children hi)
  childCount hi := (hab.childCount hi).trans (hbc.childCount hi)

/-- Inside a node that was opened on purpose less is asked for. -/
theorem relax (h : Frame false a b) : Frame inner a b :=
  { h with children := fun _ => h.children rfl, childCount := fun _ => h.childCount rfl }

/-- A change of the innermost open node that only concerns its children. -/
theorem modifyCurrent {change : Node → Node} (stack : Stack)
    (hk : (change stack.current).kind = stack.current.kind)
    (hs : (change stack.current).span = stack.current.span)
    (ho : (change stack.current).ownsSemicolon = stack.current.ownsSemicolon)
    (hc : inner = false → stack.children.dropLast <+: (change stack.current).children ∧
      stack.children.length ≤ (change stack.current).children.length) :
    Frame inner stack (stack.modifyCurrent change) := by
  obtain ⟨root, opened⟩ := stack
  cases opened with
  | nil =>
    exact ⟨rfl, rfl, fun h => absurd rfl h, hk, hs, ho, fun h => (hc h).1, fun h => (hc h).2⟩
  | cons node outer =>
    exact ⟨rfl, rfl, fun _ => rfl, hk, hs, ho, fun h => (hc h).1, fun h => (hc h).2⟩

theorem attach (stack : Stack) (node : Node) : Frame inner stack (stack.attach node) := by
  refine modifyCurrent stack rfl rfl rfl fun _ => ⟨?_, ?_⟩
  · exact (List.dropLast_prefix _).trans (List.prefix_append _ _)
  · simp [Stack.children, Node.addChild]

theorem setChildren (stack : Stack) (nodes : List Node) :
    Frame true stack (stack.setChildren nodes) :=
  modifyCurrent stack rfl rfl rfl fun h => by cases h

/-- The last child may be replaced. -/
theorem replaceLast (stack : Stack) (change : Node → Node) :
    Frame inner stack (stack.modifyCurrent (·.modifyLastChild change)) := by
  have hshape : ∀ node : Node, (node.modifyLastChild change).kind = node.kind ∧
      (node.modifyLastChild change).span = node.span ∧
      (node.modifyLastChild change).ownsSemicolon = node.ownsSemicolon ∧
      node.children.dropLast <+: (node.modifyLastChild change).children ∧
      node.children.length ≤ (node.modifyLastChild change).children.length := by
    intro node
    unfold Node.modifyLastChild
    split
    · refine ⟨rfl, rfl, rfl, List.prefix_append _ _, ?_⟩
      simp only [List.length_append, List.length_dropLast, List.length_singleton]
      omega
    · exact ⟨rfl, rfl, rfl, List.dropLast_prefix _, Nat.le_refl _⟩
  obtain ⟨hk, hs, ho, hc⟩ := hshape stack.current
  exact modifyCurrent stack hk hs ho fun _ => hc

/-- A stack on which a further node is open is as it was once that node is closed. -/
theorem of_push {node : Node} {before after : Stack}
    (h : Frame inner (before.push node) after) :
    ∃ closed : Node, closed.kind = node.kind ∧ closed.span = node.span ∧
      closed.ownsSemicolon = node.ownsSemicolon ∧ after = before.push closed := by
  obtain ⟨root, opened⟩ := after
  have hdepth := h.depth
  cases opened with
  | nil => simp [Stack.push, Stack.depth] at hdepth
  | cons closed outer =>
    refine ⟨closed, h.kind, h.span, h.ownsSemicolon, ?_⟩
    have houter : outer = before.opened := h.outer
    have hroot : root = before.root := h.root (List.cons_ne_nil _ _)
    rw [houter, hroot]
    rfl

end Frame

end Stack

/-! ## Deferred nodes -/

namespace Shelf

/-- The deferred node in a slot. -/
def pending (shelf : Shelf) (slot : Nat) : Option Node := shelf.slots[slot]?.join

theorem pending_put (shelf : Shelf) (node : Node) (slot : Nat) :
    (shelf.put node).2.pending slot =
      if slot = (shelf.put node).1.slot then some node else shelf.pending slot := by
  unfold put
  split
  · next free hfree =>
    have hlt : free < shelf.slots.length := (List.findIdx?_eq_some_iff_findIdx_eq.1 hfree).1
    by_cases hslot : slot = free
    · simp [pending, hslot, hlt]
    · simp [pending, Ne.symm hslot, hslot]
  · next hnone =>
    by_cases hslot : slot = shelf.slots.length
    · simp [pending, hslot]
    · rcases Nat.lt_or_gt_of_ne hslot with hlt | hgt
      · simp [pending, List.getElem?_append_left hlt, hslot]
      · have hge : shelf.slots.length ≤ slot := Nat.le_of_lt hgt
        have hbeyond : [some node][slot - shelf.slots.length]? = none :=
          List.getElem?_eq_none (by simp only [List.length_singleton]; omega)
        simp only [pending, List.getElem?_append_right hge, hbeyond, hslot, if_false,
          List.getElem?_eq_none hge]

/-- The slot in which a node is put was free. -/
theorem pending_put_self (shelf : Shelf) (node : Node) :
    shelf.pending (shelf.put node).1.slot = none := by
  unfold put
  split
  · next free hfree =>
    obtain ⟨hlt, hnone, -⟩ := List.findIdx?_eq_some_iff_getElem.1 hfree
    simp only [pending, List.getElem?_eq_getElem hlt, Option.join_some]
    exact Option.isNone_iff_eq_none.1 hnone
  · simp [pending]

theorem take_of_pending {shelf : Shelf} {ticket : Ticket} {node : Node}
    (h : shelf.pending ticket.slot = some node) :
    ∃ after, shelf.take ticket = .ok (node, after) ∧
      ∀ slot, after.pending slot = if slot = ticket.slot then none else shelf.pending slot := by
  have hslot : shelf.slots[ticket.slot]? = some (some node) := by
    rw [pending, Option.join_eq_some_iff] at h
    exact h
  refine ⟨⟨shelf.slots.set ticket.slot none⟩, by simp only [take, hslot], fun slot => ?_⟩
  by_cases heq : slot = ticket.slot
  · subst heq
    obtain ⟨hlt, -⟩ := List.getElem?_eq_some_iff.1 hslot
    simp [pending, hlt]
  · simp [pending, Ne.symm heq, heq]

/-- A deferred node is found again on a shelf with the same nodes on it, which then holds what it
held before. -/
theorem take_put (shelf : Shelf) (node : Node) {later : Shelf}
    (h : later.pending = (shelf.put node).2.pending) :
    ∃ after, later.take (shelf.put node).1 = .ok (node, after) ∧
      after.pending = shelf.pending := by
  have hfound : later.pending (shelf.put node).1.slot = some node := by
    rw [h, pending_put, if_pos rfl]
  obtain ⟨after, htake, hafter⟩ := take_of_pending hfound
  refine ⟨after, htake, funext fun slot => ?_⟩
  rw [hafter, h, pending_put]
  split
  · next heq => rw [heq, pending_put_self]
  · rfl

end Shelf

/-! ## Faults of the cursor -/

/-- The fault concerns what is open or deferred, and not the trees themselves. -/
def ShapeFault.concernsCursor : ShapeFault → Bool
  | rootClosed | stillOpen _ | neverAttached _ | nothingDeferred _ => true
  | _ => false

/-- The failure is one of a recovery that has lost track of what is open or deferred. -/
def Failure.concernsCursor : Failure → Bool
  | shape _ fault _ => fault.concernsCursor
  | _ => false

end Concretion
