/-!
# Searching an interval of offsets

Three searches over offsets, for any test on them.

- `firstFrom`, `lastFrom`: the least and the greatest offset of an interval that passes a test.
- `partitionPoint`: binary search for the first offset that fails a test which holds up to some
  point and no further.
- `firstFrom_eq_some_iff`, `firstFrom_eq_none_iff` and so on: what is found, and when nothing is.
-/

namespace Concretion

namespace Search

/-- The least of the `count` offsets from `start` on that passes the test. -/
def firstFrom (test : Nat → Bool) (start : Nat) : Nat → Option Nat
  | 0 => none
  | count + 1 => if test start then some start else firstFrom test (start + 1) count

/-- The greatest of the `count` offsets from `start` on that passes the test. -/
def lastFrom (test : Nat → Bool) (start : Nat) : Nat → Option Nat
  | 0 => none
  | count + 1 => if test (start + count) then some (start + count) else lastFrom test start count

/-- Binary search: halves the interval from `low` to `high` until it is empty, keeping the upper
half whenever the test holds in the middle. -/
def partitionPoint (test : Nat → Bool) (low high : Nat) : Nat :=
  if low < high then
    let middle := (low + high) / 2
    if test middle then partitionPoint test (middle + 1) high
    else partitionPoint test low middle
  else low
termination_by high - low

/-! ## What is found -/

variable {test : Nat → Bool} {start count offset : Nat}

/-- The offset is the first of the `count` offsets from `start` on that passes the test. -/
structure First (test : Nat → Bool) (start count offset : Nat) : Prop where
  passes : test offset = true
  low : start ≤ offset
  high : offset < start + count
  before : ∀ i, start ≤ i → i < offset → test i = false

/-- The offset is the last of the `count` offsets from `start` on that passes the test. -/
structure Last (test : Nat → Bool) (start count offset : Nat) : Prop where
  passes : test offset = true
  low : start ≤ offset
  high : offset < start + count
  behind : ∀ i, offset < i → i < start + count → test i = false

/-- What is found in a window lies in front of its end. -/
theorem First.lt_stop {stop : Nat} (h : First test start (stop - start) offset) :
    offset < stop := by
  have hlow := h.low
  have hhigh := h.high
  omega

@[inherit_doc First.lt_stop]
theorem Last.lt_stop {stop : Nat} (h : Last test start (stop - start) offset) : offset < stop := by
  have hlow := h.low
  have hhigh := h.high
  omega

theorem firstFrom_eq_some_iff :
    firstFrom test start count = some offset ↔ First test start count offset := by
  induction count generalizing start with
  | zero =>
    constructor
    · rintro ⟨⟩
    · intro h
      have hlow := h.low
      have hhigh := h.high
      omega
  | succ count ih =>
    rw [firstFrom]
    by_cases hstart : test start = true
    · rw [if_pos hstart]
      constructor
      · rintro ⟨⟩
        exact ⟨hstart, Nat.le_refl _, by omega, fun i hlow hhigh => by omega⟩
      · intro h
        rcases Nat.eq_or_lt_of_le h.low with rfl | hlt
        · rfl
        · rw [h.before start (Nat.le_refl _) hlt] at hstart
          cases hstart
    · rw [if_neg hstart, ih]
      have hfails := Bool.eq_false_iff.2 hstart
      constructor
      · intro h
        have hlow := h.low
        have hhigh := h.high
        refine ⟨h.passes, by omega, by omega, fun i hi hlt => ?_⟩
        rcases Nat.eq_or_lt_of_le hi with rfl | hbehind
        · exact hfails
        · exact h.before i hbehind hlt
      · intro h
        have hhigh := h.high
        rcases Nat.eq_or_lt_of_le h.low with rfl | hlt
        · exact absurd h.passes hstart
        · exact ⟨h.passes, hlt, by omega, fun i hi => h.before i (by omega)⟩

theorem firstFrom_eq_none_iff :
    firstFrom test start count = none ↔ ∀ i, start ≤ i → i < start + count → test i = false := by
  induction count generalizing start with
  | zero => exact iff_of_true rfl fun i hlow hhigh => by omega
  | succ count ih =>
    rw [firstFrom]
    by_cases hstart : test start = true
    · rw [if_pos hstart]
      refine iff_of_false nofun fun h => ?_
      rw [h start (Nat.le_refl _) (by omega)] at hstart
      cases hstart
    · rw [if_neg hstart, ih]
      constructor
      · intro h i hlow hhigh
        rcases Nat.eq_or_lt_of_le hlow with rfl | hlt
        · exact Bool.eq_false_iff.2 hstart
        · exact h i hlt (by omega)
      · exact fun h i hlow hhigh => h i (by omega) (by omega)

theorem lastFrom_eq_some_iff :
    lastFrom test start count = some offset ↔ Last test start count offset := by
  induction count with
  | zero =>
    constructor
    · rintro ⟨⟩
    · intro h
      have hlow := h.low
      have hhigh := h.high
      omega
  | succ count ih =>
    rw [lastFrom]
    by_cases hlast : test (start + count) = true
    · rw [if_pos hlast]
      constructor
      · rintro ⟨⟩
        exact ⟨hlast, Nat.le_add_right _ _, by omega, fun i hlow hhigh => by omega⟩
      · intro h
        have hhigh := h.high
        rcases Nat.lt_or_eq_of_le (Nat.le_of_lt_succ hhigh) with hlt | rfl
        · rw [h.behind (start + count) hlt (by omega)] at hlast
          cases hlast
        · rfl
    · rw [if_neg hlast, ih]
      have hfails := Bool.eq_false_iff.2 hlast
      constructor
      · intro h
        have hhigh := h.high
        refine ⟨h.passes, h.low, by omega, fun i hlow hi => ?_⟩
        rcases Nat.lt_or_eq_of_le (Nat.le_of_lt_succ hi) with hlt | rfl
        · exact h.behind i hlow hlt
        · exact hfails
      · intro h
        rcases Nat.lt_or_eq_of_le (Nat.le_of_lt_succ h.high) with hlt | rfl
        · exact ⟨h.passes, h.low, hlt, fun i hi hbound => h.behind i hi (by omega)⟩
        · exact absurd h.passes hlast

theorem lastFrom_eq_none_iff :
    lastFrom test start count = none ↔ ∀ i, start ≤ i → i < start + count → test i = false := by
  induction count with
  | zero => exact iff_of_true rfl fun i hlow hhigh => by omega
  | succ count ih =>
    rw [lastFrom]
    by_cases hlast : test (start + count) = true
    · rw [if_pos hlast]
      refine iff_of_false nofun fun h => ?_
      rw [h (start + count) (Nat.le_add_right _ _) (by omega)] at hlast
      cases hlast
    · rw [if_neg hlast, ih]
      constructor
      · intro h i hlow hhigh
        rcases Nat.lt_or_eq_of_le (Nat.le_of_lt_succ hhigh) with hlt | rfl
        · exact h i hlow hlt
        · exact Bool.eq_false_iff.2 hlast
      · exact fun h i hlow hhigh => h i hlow (by omega)

/-- A test that some offset passes is passed by a first one. -/
theorem exists_firstFrom (hat : test offset = true) (hlow : start ≤ offset)
    (hhigh : offset < start + count) :
    ∃ first, firstFrom test start count = some first ∧ First test start count first ∧
      first ≤ offset := by
  cases hfirst : firstFrom test start count with
  | none =>
    rw [firstFrom_eq_none_iff.1 hfirst offset hlow hhigh] at hat
    cases hat
  | some first =>
    have hspec := firstFrom_eq_some_iff.1 hfirst
    refine ⟨first, rfl, hspec, Nat.le_of_not_lt fun hlt => ?_⟩
    rw [hspec.before offset hlow hlt] at hat
    cases hat

/-- In a window that begins later the same is found, unless it is no longer in the window. -/
theorem lastFrom_later {test : Nat → Bool} {start later : Nat} (h : start ≤ later) (stop : Nat) :
    lastFrom test later (stop - later) =
      (lastFrom test start (stop - start)).filter (later ≤ ·) := by
  by_cases hstop : later < stop
  · obtain ⟨count, rfl⟩ := Nat.exists_eq_add_of_lt hstop
    have hplace : start + (later + count - start) = later + count := by omega
    have hnarrow : later + count + 1 - later = count + 1 := by omega
    have hwide : later + count + 1 - start = later + count - start + 1 := by omega
    have ih : lastFrom test later (later + count - later) = _ := lastFrom_later h (later + count)
    rw [Nat.add_sub_cancel_left] at ih
    rw [hnarrow, hwide, lastFrom, lastFrom, hplace]
    by_cases hat : test (later + count) = true
    · have hin : decide (later ≤ later + count) = true := decide_eq_true (Nat.le_add_right _ _)
      rw [if_pos hat, if_pos hat, Option.filter_some, hin]
      rfl
    · rw [if_neg hat, if_neg hat]
      exact ih
  · -- what is found in the wider window lies in front of the narrow one
    rw [Nat.sub_eq_zero_of_le (Nat.le_of_not_lt hstop), lastFrom]
    cases hfound : lastFrom test start (stop - start) with
    | none => rfl
    | some offset =>
      have hlt := (lastFrom_eq_some_iff.1 hfound).high
      have hout : decide (later ≤ offset) = false := decide_eq_false (by omega)
      rw [Option.filter_some, hout]
      rfl
termination_by stop

/-! ## Binary search -/

/-- The search ends at the upper end of the interval or at an offset that fails the test. -/
theorem partitionPoint_stops (test : Nat → Bool) (low high : Nat) (h : low ≤ high) :
    partitionPoint test low high = high ∨ test (partitionPoint test low high) = false := by
  fun_induction partitionPoint test low high with
  | case1 low high hlt middle hm ih => exact ih (by omega)
  | case2 low high hlt middle hm ih =>
    rcases ih (by omega) with ih | ih
    · exact .inr (by rw [ih]; simpa using hm)
    · exact .inr ih
  | case3 low high hlt => exact .inl (by omega)

/-- For a test that, where it holds, also holds before, binary search finds the place at which it
ceases to hold. -/
theorem partitionPoint_spec {test : Nat → Bool} (hmono : ∀ i j, i < j → test j → test i)
    (low high : Nat) (hle : low ≤ high) :
    (∀ i, low ≤ i → i < partitionPoint test low high → test i) ∧
      ∀ i, partitionPoint test low high ≤ i → i < high → test i = false := by
  -- Each half of the search settles the other one, because the test fails from some point on.
  fun_induction partitionPoint test low high with
  | case1 low high hlt middle htest ih =>
    obtain ⟨hbelow, habove⟩ := ih (by omega)
    refine ⟨fun i hi hpoint => ?_, habove⟩
    by_cases hmiddle : middle < i
    · exact hbelow i hmiddle hpoint
    · rcases Nat.lt_or_eq_of_le (Nat.not_lt.1 hmiddle) with hbefore | rfl
      · exact hmono i middle hbefore htest
      · exact htest
  | case2 low high hlt middle htest ih =>
    obtain ⟨hbelow, habove⟩ := ih (by omega)
    refine ⟨hbelow, fun i hpoint hi => ?_⟩
    by_cases hmiddle : i < middle
    · exact habove i hpoint hmiddle
    · rcases Nat.lt_or_eq_of_le (Nat.not_lt.1 hmiddle) with hbehind | rfl
      · exact Bool.eq_false_iff.2 fun h => htest (hmono middle i hbehind h)
      · exact Bool.eq_false_iff.2 htest
  | case3 low high hlt =>
    exact ⟨fun i hi hpoint => by omega, fun i hpoint hi => by omega⟩

end Search

end Concretion
