import Concretion.Proofs.Frame
import Mathlib.Data.List.Count
import Mathlib.Data.List.Nodup
import Mathlib.Order.Bounds.Basic

/-!
# A shelf in use

A ticket is no more than the number of a slot, and slots are used again. So two tickets for
different nodes may well be equal, only not while both nodes are on the shelf. That a ticket always
leads back to its own node is a matter of the whole history of a shelf.

- `Shelf.Use`: putting a node on the shelf, or taking one back. Tickets are told apart by their
  turn, which is the order in which they were given out.
- `Shelf.Fair`: a history in which every ticket is used once at most.
- `Shelf.InUse.of`: the shelf and the tickets after a history.
- `Shelf.outstanding`, `Shelf.loads`: the tickets that can still be used, and how many of them there
  have been at a time. Both are read off the history alone.
- `Shelf.Tracks`: what a shelf has to do with its history. It is kept by both uses.
-/

namespace Concretion

namespace Shelf

/-! ## Histories -/

/-- One use of a shelf. -/
inductive Use where
  | put (node : Node)
  /-- A node is taken back by the ticket of the given turn. -/
  | take (turn : Nat)

/-- The node that is put on the shelf. -/
def Use.node? : Use → Option Node
  | put node => some node
  | take _ => none

/-- The turn of the ticket that is used. -/
def Use.turn? : Use → Option Nat
  | put _ => none
  | take turn => some turn

/-- The nodes put on a shelf, each at the turn of its ticket. -/
def nodesPut (uses : List Use) : List Node := uses.filterMap Use.node?

/-- The turns of the tickets that have been used. -/
def turnsTaken (uses : List Use) : List Nat := uses.filterMap Use.turn?

/-- The turns of the tickets that have been given out and not been used. -/
def outstanding (uses : List Use) : List Nat :=
  (List.range (nodesPut uses).length).filter fun turn => turn ∉ turnsTaken uses

/-- The numbers of tickets that were outstanding at the same time, now or in the past. -/
def loads (uses : List Use) : Set Nat :=
  {number | ∃ past, past <+: uses ∧ (outstanding past).length = number}

/-- Every ticket is used once at most, and not before it has been given out. -/
inductive Fair : List Use → Prop
  | nil : Fair []
  | put {uses : List Use} (node : Node) : Fair uses → Fair (uses ++ [.put node])
  | take {uses : List Use} {turn : Nat} : Fair uses → turn ∈ outstanding uses →
    Fair (uses ++ [.take turn])

/-- A shelf and the tickets given out for it, in order. -/
structure InUse where
  shelf : Shelf
  tickets : List Ticket

namespace InUse

/-- What comes of a use. A ticket that is no good changes nothing. -/
def after (state : InUse) : Use → InUse
  | .put node =>
    let (ticket, shelf) := state.shelf.put node
    ⟨shelf, state.tickets ++ [ticket]⟩
  | .take turn =>
    match state.tickets[turn]?.map state.shelf.take with
    | some (.ok (_, shelf)) => { state with shelf := shelf }
    | _ => state

/-- What an empty shelf comes to by its uses. -/
def of (uses : List Use) : InUse := uses.foldl after ⟨.empty, []⟩

theorem of_concat (uses : List Use) (use : Use) : of (uses ++ [use]) = (of uses).after use := by
  rw [of, List.foldl_append]
  rfl

end InUse

/-! ## What is outstanding -/

section History

variable {uses : List Use}

@[simp] theorem nodesPut_put (node : Node) :
    nodesPut (uses ++ [.put node]) = nodesPut uses ++ [node] := by
  rw [nodesPut, List.filterMap_append]
  rfl

@[simp] theorem nodesPut_take (turn : Nat) : nodesPut (uses ++ [.take turn]) = nodesPut uses := by
  rw [nodesPut, List.filterMap_append]
  exact List.append_nil _

@[simp] theorem turnsTaken_put (node : Node) :
    turnsTaken (uses ++ [.put node]) = turnsTaken uses := by
  rw [turnsTaken, List.filterMap_append]
  exact List.append_nil _

@[simp] theorem turnsTaken_take (turn : Nat) :
    turnsTaken (uses ++ [.take turn]) = turnsTaken uses ++ [turn] := by
  rw [turnsTaken, List.filterMap_append]
  rfl

theorem mem_outstanding {turn : Nat} :
    turn ∈ outstanding uses ↔ turn < (nodesPut uses).length ∧ turn ∉ turnsTaken uses := by
  simp [outstanding]

theorem nodup_outstanding (uses : List Use) : (outstanding uses).Nodup :=
  List.nodup_range.filter _

/-- Only tickets that have been given out are used. -/
theorem Fair.lt_of_taken (h : Fair uses) :
    ∀ turn ∈ turnsTaken uses, turn < (nodesPut uses).length := by
  induction h with
  | nil => exact fun _ hmem => by cases hmem
  | put node _ ih =>
    intro turn hmem
    rw [turnsTaken_put] at hmem
    rw [nodesPut_put, List.length_append]
    exact Nat.lt_add_right _ (ih turn hmem)
  | take _ hturn ih =>
    intro turn hmem
    rw [turnsTaken_take, List.mem_append, List.mem_singleton] at hmem
    rw [nodesPut_take]
    rcases hmem with hmem | rfl
    · exact ih turn hmem
    · exact (mem_outstanding.1 hturn).1

/-- A new ticket has the next turn, and is outstanding. -/
theorem outstanding_put (h : Fair uses) (node : Node) :
    outstanding (uses ++ [.put node]) = outstanding uses ++ [(nodesPut uses).length] := by
  have hnew : (nodesPut uses).length ∉ turnsTaken uses :=
    fun hmem => Nat.lt_irrefl _ (h.lt_of_taken _ hmem)
  simp [outstanding, List.range_succ, hnew]

/-- A ticket that has been used is not outstanding any more. -/
theorem outstanding_take (turn : Nat) :
    outstanding (uses ++ [.take turn]) = (outstanding uses).erase turn := by
  rw [(nodup_outstanding uses).erase_eq_filter]
  simp only [outstanding, turnsTaken_take, nodesPut_take, List.filter_filter]
  refine List.filter_congr fun other _ => ?_
  by_cases hother : other = turn <;> simp [hother]

theorem loads_concat (use : Use) :
    loads (uses ++ [use]) = insert (outstanding (uses ++ [use])).length (loads uses) := by
  ext number
  simp only [loads, Set.mem_ofPred_eq, Set.mem_insert_iff, List.prefix_concat_iff]
  constructor
  · rintro ⟨past, rfl | hpast, rfl⟩
    · exact .inl rfl
    · exact .inr ⟨past, hpast, rfl⟩
  · rintro (rfl | ⟨past, hpast, rfl⟩)
    · exact ⟨_, .inl rfl, rfl⟩
    · exact ⟨past, .inr hpast, rfl⟩

end History

/-! ## Slots -/

theorem count_put (shelf : Shelf) (node : Node) :
    (shelf.put node).2.count = shelf.count + 1 := by
  unfold put
  split
  · next free hfree =>
    obtain ⟨hlt, hnone, -⟩ := List.findIdx?_eq_some_iff_getElem.1 hfree
    have hempty : shelf.slots[free].isSome = false := by simpa using hnone
    simp [count, List.countP_set hlt, hempty]
  · simp [count]

/-- A slot is added only when all are taken. So there are no more slots than nodes, unless there
were before. -/
theorem slots_put (shelf : Shelf) (node : Node) :
    (shelf.put node).2.slots.length = max (shelf.count + 1) shelf.slots.length := by
  unfold put
  split
  · next free hfree =>
    obtain ⟨hlt, hnone, -⟩ := List.findIdx?_eq_some_iff_getElem.1 hfree
    have hless : shelf.count < shelf.slots.length :=
      List.countP_lt_length_iff.2 ⟨_, List.getElem_mem hlt, by simpa using hnone⟩
    rw [List.length_set]
    omega
  · next hnone =>
    have hall : shelf.count = shelf.slots.length :=
      List.countP_eq_length.2 fun slot hslot => by
        simpa using List.findIdx?_eq_none_iff.1 hnone slot hslot
    rw [List.length_append, List.length_singleton, hall]
    omega

theorem count_take {shelf after : Shelf} {ticket : Ticket} {node : Node}
    (h : shelf.take ticket = .ok (node, after)) :
    shelf.count = after.count + 1 ∧ after.slots.length = shelf.slots.length := by
  unfold take at h
  split at h
  · next found hslot =>
    cases h
    obtain ⟨hlt, hfound⟩ := List.getElem?_eq_some_iff.1 hslot
    have hpos : 0 < shelf.count :=
      List.countP_pos_iff.2 ⟨_, List.getElem_mem hlt, by rw [hfound]; rfl⟩
    refine ⟨?_, List.length_set⟩
    simp only [count] at hpos
    simp only [count, List.countP_set hlt, hfound]
    simp only [Option.isSome_some, Option.isSome_none, if_true, Bool.false_eq_true, if_false]
    omega
  · cases h

/-! ## Shelf and history -/

/-- The shelf is as its history says: each outstanding ticket leads to its own node, no two of them
are equal, and there are no other nodes and no more slots than had to be. -/
structure Tracks (uses : List Use) (state : InUse) : Prop where
  issued : state.tickets.length = (nodesPut uses).length
  holds : ∀ turn ∈ outstanding uses, ∃ ticket node, state.tickets[turn]? = some ticket ∧
    (nodesPut uses)[turn]? = some node ∧ state.shelf.pending ticket.slot = some node
  apart : ∀ turn ∈ outstanding uses, ∀ other ∈ outstanding uses,
    state.tickets[turn]? = state.tickets[other]? → turn = other
  count : state.shelf.count = (outstanding uses).length
  slots : IsGreatest (loads uses) state.shelf.slots.length

namespace Tracks

theorem empty : Tracks [] ⟨.empty, []⟩ where
  issued := rfl
  holds _ h := by cases h
  apart _ h := by cases h
  count := rfl
  slots := by
    refine ⟨⟨[], List.nil_prefix, rfl⟩, ?_⟩
    rintro number ⟨past, hpast, rfl⟩
    obtain rfl := List.prefix_nil.1 hpast
    exact Nat.le_refl _

variable {uses : List Use} {state : InUse}

theorem put (h : Tracks uses state) (hfair : Fair uses) (node : Node) :
    Tracks (uses ++ [.put node]) (state.after (.put node)) := by
  have hold : ∀ turn ∈ outstanding uses,
      (state.after (.put node)).tickets[turn]? = state.tickets[turn]? := fun turn hmem =>
    List.getElem?_append_left (h.issued ▸ (mem_outstanding.1 hmem).1)
  have hnew : (state.after (.put node)).tickets[(nodesPut uses).length]? =
      some (state.shelf.put node).1 := by
    rw [← h.issued]
    exact List.getElem?_concat_length
  -- the slot of the new ticket was free, so no ticket that is outstanding has that slot
  have hfree : ∀ turn ∈ outstanding uses, ∀ ticket, state.tickets[turn]? = some ticket →
      ticket.slot ≠ (state.shelf.put node).1.slot := by
    intro turn hmem ticket hticket hslot
    obtain ⟨same, kept, hsame, -, hpending⟩ := h.holds turn hmem
    obtain rfl : ticket = same := Option.some.inj (hticket.symm.trans hsame)
    rw [hslot, pending_put_self] at hpending
    cases hpending
  refine ⟨?_, ?_, ?_, ?_, ?_⟩
  · rw [nodesPut_put, List.length_append, ← h.issued]
    exact List.length_append
  · rw [outstanding_put hfair, nodesPut_put]
    intro turn hmem
    rcases List.mem_append.1 hmem with hmem | hmem
    · obtain ⟨ticket, kept, hticket, hkept, hpending⟩ := h.holds turn hmem
      refine ⟨ticket, kept, (hold turn hmem).trans hticket, ?_, ?_⟩
      · rw [List.getElem?_append_left (mem_outstanding.1 hmem).1, hkept]
      · exact (pending_put _ _ _).trans ((if_neg (hfree turn hmem ticket hticket)).trans hpending)
    · obtain rfl := List.mem_singleton.1 hmem
      exact ⟨_, node, hnew, List.getElem?_concat_length, (pending_put _ _ _).trans (if_pos rfl)⟩
  · rw [outstanding_put hfair]
    have hapart : ∀ turn ∈ outstanding uses, (state.after (.put node)).tickets[turn]? ≠
        (state.after (.put node)).tickets[(nodesPut uses).length]? := by
      intro turn hmem hequal
      rw [hold turn hmem, hnew] at hequal
      exact hfree turn hmem _ hequal rfl
    intro turn hturn other hother hequal
    rcases List.mem_append.1 hturn with hturn | hturn <;>
      rcases List.mem_append.1 hother with hother | hother
    · rw [hold turn hturn, hold other hother] at hequal
      exact h.apart turn hturn other hother hequal
    · obtain rfl := List.mem_singleton.1 hother
      exact absurd hequal (hapart turn hturn)
    · obtain rfl := List.mem_singleton.1 hturn
      exact absurd hequal.symm (hapart other hother)
    · exact (List.mem_singleton.1 hturn).trans (List.mem_singleton.1 hother).symm
  · rw [outstanding_put hfair, List.length_append, ← h.count]
    exact count_put _ _
  · rw [loads_concat, outstanding_put hfair, List.length_append, ← h.count]
    have hslots := h.slots.insert (state.shelf.count + 1)
    rw [← slots_put _ node] at hslots
    exact hslots

theorem take (h : Tracks uses state) {turn : Nat} (hturn : turn ∈ outstanding uses) :
    Tracks (uses ++ [.take turn]) (state.after (.take turn)) := by
  obtain ⟨ticket, node, hticket, -, hpending⟩ := h.holds turn hturn
  obtain ⟨shelf, htake, hrest⟩ := take_of_pending hpending
  obtain ⟨hcount, hslots⟩ := count_take htake
  have hafter : state.after (.take turn) = { state with shelf := shelf } := by
    simp only [InUse.after, hticket, Option.map_some, htake]
  have hlength : (outstanding uses).length = ((outstanding uses).erase turn).length + 1 := by
    rw [List.length_erase_of_mem hturn]
    have := List.length_pos_of_mem hturn
    omega
  rw [hafter]
  refine ⟨?_, ?_, ?_, ?_, ?_⟩
  · rw [nodesPut_take]
    exact h.issued
  · rw [outstanding_take, nodesPut_take]
    intro other hmem
    obtain ⟨hne, hother⟩ := (nodup_outstanding uses).mem_erase_iff.1 hmem
    obtain ⟨kept, found, hkept, hfound, hstill⟩ := h.holds other hother
    refine ⟨kept, found, hkept, hfound, (hrest kept.slot).trans ((if_neg ?_).trans hstill)⟩
    -- Tickets with one slot are one ticket, and no two turns share a ticket.
    intro hslot
    obtain rfl : kept = ticket := by
      cases kept
      cases ticket
      exact congrArg Ticket.mk hslot
    exact hne (h.apart other hother turn hturn (hkept.trans hticket.symm))
  · rw [outstanding_take]
    exact fun other hother another hanother =>
      h.apart other (List.mem_of_mem_erase hother) another (List.mem_of_mem_erase hanother)
  · rw [outstanding_take]
    exact Nat.succ.inj (hcount.symm.trans (h.count.trans hlength))
  · rw [loads_concat, outstanding_take]
    -- The load goes down, so the greatest load that there has been stays as it is.
    have hless : ((outstanding uses).erase turn).length ≤ state.shelf.slots.length :=
      (by omega : _ ≤ (outstanding uses).length).trans (h.slots.2 ⟨uses, List.prefix_rfl, rfl⟩)
    have hgreatest := h.slots.insert ((outstanding uses).erase turn).length
    rw [max_eq_right hless, ← hslots] at hgreatest
    exact hgreatest

/-- A shelf that is used fairly is always as its history says. -/
theorem of_fair {uses : List Use} (h : Fair uses) : Tracks uses (.of uses) := by
  induction h with
  | nil => exact empty
  | put node hfair ih =>
    rw [InUse.of_concat]
    exact ih.put hfair node
  | take _ hturn ih =>
    rw [InUse.of_concat]
    exact ih.take hturn

end Tracks

/-- A shelf is a faithful store. Whatever has been put on it and taken from it, as long as no ticket
is used twice: each outstanding ticket is good for the node that it was given out for, no two of
them are equal, the shelf counts them, and it has as many slots as there were outstanding tickets
when there were the most. -/
theorem deferred_nodes_are_kept {uses : List Use} (h : Fair uses) :
    (∀ turn ∈ outstanding uses, ∃ ticket node rest,
      (InUse.of uses).tickets[turn]? = some ticket ∧ (nodesPut uses)[turn]? = some node ∧
      (InUse.of uses).shelf.take ticket = .ok (node, rest)) ∧
    (∀ turn ∈ outstanding uses, ∀ other ∈ outstanding uses,
      (InUse.of uses).tickets[turn]? = (InUse.of uses).tickets[other]? → turn = other) ∧
    (InUse.of uses).shelf.count = (outstanding uses).length ∧
    ((InUse.of uses).shelf.isEmpty = true ↔ outstanding uses = []) ∧
    IsGreatest (loads uses) (InUse.of uses).shelf.slots.length := by
  have htracks := Tracks.of_fair h
  refine ⟨fun turn hturn => ?_, htracks.apart, htracks.count, ?_, htracks.slots⟩
  · obtain ⟨ticket, node, hticket, hnode, hpending⟩ := htracks.holds turn hturn
    obtain ⟨rest, htake, -⟩ := take_of_pending hpending
    exact ⟨ticket, node, rest, hticket, hnode, htake⟩
  · rw [isEmpty, beq_iff_eq, htracks.count, List.length_eq_zero_iff]

/-- The slot of the second node is used again for the third one, while the first is waiting. -/
def sampleUses : List Use :=
  [.put (.empty 1), .put (.empty 2), .take 1, .put (.elision 3), .take 0]

theorem fair_sampleUses : Fair sampleUses := by
  have h : Fair [.put (.empty 1), .put (.empty 2)] := .put _ (.put _ .nil)
  have h : Fair [.put (.empty 1), .put (.empty 2), .take 1] := .take h (by decide)
  exact .take (.put _ h) (by decide)

/-- The third node has the ticket that the second one had, and there have only been two slots. -/
theorem deferred_nodes_of_sampleUses :
    Fair sampleUses ∧ outstanding sampleUses = [2] ∧
    (∃ rest, (InUse.of sampleUses).shelf.take ⟨1⟩ = .ok (.elision 3, rest)) ∧
    (InUse.of sampleUses).shelf.count = 1 ∧ IsGreatest (loads sampleUses) 2 := by
  obtain ⟨htake, -, hcount, -, hslots⟩ := deferred_nodes_are_kept fair_sampleUses
  have houtstanding : outstanding sampleUses = [2] := by decide
  refine ⟨fair_sampleUses, houtstanding, ?_, ?_, hslots⟩
  · obtain ⟨ticket, node, rest, hticket, hnode, hrest⟩ := htake 2 (by decide)
    cases hticket
    cases hnode
    exact ⟨rest, hrest⟩
  · rw [hcount, houtstanding]
    rfl

end Shelf

end Concretion
