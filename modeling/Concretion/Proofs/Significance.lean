import Concretion.Proofs.Comments
import Mathlib.Data.Nat.Find
import Mathlib.Order.Bounds.Basic

/-!
# The next significant byte

The search for it takes a step of one byte over blank space, and where comments are skipped it goes
to the end of a comment at once, wherever inside of the comment it has begun. It ends because a
comment that is found around an offset ends behind it, and it misses nothing because all that such
a turn of the search leaves behind is blank or part of that one comment.

- `Source.Counts`: an offset that the search is to stop at, said without the search.
- `Source.Passes`: one turn of the search. It goes forward and passes over nothing that counts.
- `Source.passes_or_counts`: inside of the text the search goes on or has found what it looks for.
- `Source.nextSignificant_eq_some_iff_isLeast`: what is found is the first offset that counts.
- `Source.nextSignificant_finds_least`: the search as a whole, for both ways to treat comments.
-/

namespace Concretion

open Text

namespace Source

variable {source : Source} {start offset next : Nat}

/-! ## What counts -/

/-- The byte at the offset is not blank, and where comments are skipped it is part of none. -/
structure Counts (source : Source) (offset : Nat) : Prop where
  solid : ∃ b, source.byteAt offset = some b ∧ isBlankByte b = false
  outside : source.mode = .skipTrivia → ∀ trivia ∈ source.trivia, trivia.kind = .comment →
    ¬(trivia.start ≤ offset ∧ offset < trivia.finish)

theorem Counts.lt_size (h : source.Counts offset) : offset < source.size := by
  obtain ⟨b, hbyte, -⟩ := h.solid
  exact (Array.getElem?_eq_some_iff.1 hbyte).1

theorem Counts.inComment (h : source.Counts offset) (hmode : source.mode = .skipTrivia) :
    source.inComment offset = false := by
  rw [Bool.eq_false_iff]
  intro hcomment
  obtain ⟨trivia, hmem, hkind, haround⟩ := source.inComment_iff.1 hcomment
  exact h.outside hmode trivia hmem hkind haround

theorem counts_of_byte {b : UInt8} (hbyte : source.byteAt offset = some b)
    (hblank : isBlankByte b = false)
    (hcode : source.mode = .skipTrivia → source.inComment offset = false) :
    source.Counts offset where
  solid := ⟨b, hbyte, hblank⟩
  outside hmode trivia hmem hkind haround := by
    have hcomment := source.inComment_iff.2 ⟨trivia, hmem, hkind, haround⟩
    rw [hcode hmode] at hcomment
    cases hcomment

/-- In a literal it is the byte alone that matters. -/
theorem counts_iff_of_literal {trivia : Trivia} (hmem : trivia ∈ source.trivia)
    (hkind : trivia.kind = .literal) (hstart : trivia.start ≤ offset)
    (hfinish : offset < trivia.finish) :
    source.Counts offset ↔ ∃ b, source.byteAt offset = some b ∧ isBlankByte b = false := by
  constructor
  · exact Counts.solid
  · rintro ⟨b, hbyte, hblank⟩
    exact counts_of_byte hbyte hblank fun _ =>
      source.inComment_of_literal hmem hkind hstart hfinish

/-! ## One turn of the search -/

/-- One turn of the search, from an offset to the next one that is looked at. -/
inductive Passes (source : Source) : Nat → Nat → Prop where
  /-- The rest of a comment is passed over. -/
  | comment {offset : Nat} {trivia : Trivia} (hmode : source.mode = .skipTrivia)
    (haround : source.triviaAt offset = some trivia) (hkind : trivia.kind = .comment) :
    Passes source offset trivia.finish
  /-- A blank byte is passed over. -/
  | blank {offset : Nat} {b : UInt8} (hbyte : source.byteAt offset = some b)
    (hblank : isBlankByte b = true)
    (hcode : source.mode = .skipTrivia → source.inComment offset = false) :
    Passes source offset (offset + 1)

/-- The search goes forward, and not beyond the end of the text. -/
theorem Passes.lt (h : source.Passes offset next) : offset < next ∧ next ≤ source.size := by
  cases h with
  | comment _ haround _ =>
    obtain ⟨hmem, -, hfinish⟩ := source.triviaAt_eq_some_iff.1 haround
    exact ⟨hfinish, (source.trivia_inside hmem).2⟩
  | blank hbyte _ _ => exact ⟨Nat.lt_succ_self _, (Array.getElem?_eq_some_iff.1 hbyte).1⟩

/-- There is no search that goes on for ever. -/
theorem wellFounded_passes (source : Source) :
    WellFounded fun next offset => source.Passes offset next := by
  refine Subrelation.wf (fun {next offset} h => ?_) (measure fun i => source.size - i).wf
  obtain ⟨hlt, hle⟩ := Passes.lt h
  show source.size - next < source.size - offset
  omega

/-- Nothing that is passed over counts. -/
theorem Passes.not_counts (h : source.Passes offset next) {i : Nat} (hi : offset ≤ i)
    (hlt : i < next) : ¬source.Counts i := by
  intro hcounts
  cases h with
  | comment hmode haround hkind =>
    obtain ⟨hmem, hstart, -⟩ := source.triviaAt_eq_some_iff.1 haround
    exact hcounts.outside hmode _ hmem hkind ⟨hstart.trans hi, hlt⟩
  | blank hbyte hblank _ =>
    obtain rfl : i = offset := by omega
    obtain ⟨b, hother, hsolid⟩ := hcounts.solid
    rw [hbyte] at hother
    cases hother
    rw [hblank] at hsolid
    cases hsolid

/-- What is passed over makes no difference to what is found. -/
theorem Passes.nextSignificant (h : source.Passes offset next) :
    source.nextSignificant offset = source.nextSignificant next := by
  cases h with
  | comment hmode haround hkind => exact nextSignificant_of_comment hmode haround hkind
  | blank hbyte hblank hcode => rw [nextSignificant_of_code hbyte hcode, if_pos hblank]

/-- The search stops where the byte counts. -/
theorem Counts.nextSignificant (h : source.Counts offset) :
    source.nextSignificant offset = some offset := by
  obtain ⟨b, hbyte, hblank⟩ := h.solid
  rw [nextSignificant_of_code hbyte h.inComment, hblank, if_neg Bool.false_ne_true]

/-- Inside of the text the search goes on, or it has found what it looks for. -/
theorem passes_or_counts (h : offset < source.size) :
    (∃ next, source.Passes offset next) ∨ source.Counts offset := by
  by_cases hskip : source.mode = .skipTrivia ∧ source.inComment offset = true
  · obtain ⟨hmode, hcomment⟩ := hskip
    obtain ⟨trivia, haround, hkind⟩ := (Option.any_eq_true _ _).1 hcomment
    exact .inl ⟨_, .comment hmode haround (eq_of_beq hkind)⟩
  · have hcode : source.mode = .skipTrivia → source.inComment offset = false :=
      fun hmode => Bool.eq_false_iff.2 fun hcomment => hskip ⟨hmode, hcomment⟩
    have hbyte : source.byteAt offset = some source.bytes[offset] := Array.getElem?_eq_getElem h
    cases hblank : isBlankByte source.bytes[offset] with
    | true => exact .inl ⟨_, .blank hbyte hblank hcode⟩
    | false => exact .inr (counts_of_byte hbyte hblank hcode)

/-! ## The whole search -/

/-- What is found is the first offset that counts. The induction is on the turns of the search. -/
theorem nextSignificant_eq_some_iff_isLeast (source : Source) (start offset : Nat) :
    source.nextSignificant start = some offset ↔
      IsLeast {i | start ≤ i ∧ source.Counts i} offset := by
  induction start using source.wellFounded_passes.induction with
  | _ start ih =>
    by_cases hsize : source.size ≤ start
    · rw [nextSignificant_of_size_le hsize]
      constructor
      · rintro ⟨⟩
      · rintro ⟨⟨hbehind, hcounts⟩, -⟩
        have hlt := hcounts.lt_size
        omega
    rcases passes_or_counts (Nat.not_le.1 hsize) with ⟨next, hpasses⟩ | hcounts
    · -- the offsets that count are the same from the next one on
      have hsame : {i | start ≤ i ∧ source.Counts i} = {i | next ≤ i ∧ source.Counts i} := by
        ext i
        constructor
        · rintro ⟨hi, hcounts⟩
          exact ⟨Nat.not_lt.1 fun hlt => hpasses.not_counts hi hlt hcounts, hcounts⟩
        · rintro ⟨hi, hcounts⟩
          exact ⟨hpasses.lt.1.le.trans hi, hcounts⟩
      rw [hpasses.nextSignificant, hsame]
      exact ih next hpasses
    · have hleast : IsLeast {i | start ≤ i ∧ source.Counts i} start :=
        ⟨⟨Nat.le_refl start, hcounts⟩, fun i hi => hi.1⟩
      rw [hcounts.nextSignificant, Option.some_inj]
      constructor
      · rintro rfl
        exact hleast
      · exact hleast.unique

/-- Nothing is found just if nothing counts from there on. -/
theorem nextSignificant_eq_none_iff (source : Source) (start : Nat) :
    source.nextSignificant start = none ↔ ∀ i, start ≤ i → ¬source.Counts i := by
  constructor
  · intro hnone i hi hcounts
    classical
    have hsome : ∃ i, start ≤ i ∧ source.Counts i := ⟨i, hi, hcounts⟩
    have hleast : IsLeast {i | start ≤ i ∧ source.Counts i} (Nat.find hsome) :=
      ⟨Nat.find_spec hsome, fun other hother => Nat.find_min' hsome hother⟩
    rw [(source.nextSignificant_eq_some_iff_isLeast start _).2 hleast] at hnone
    cases hnone
  · intro h
    rw [Option.eq_none_iff_forall_ne_some]
    intro offset hfound
    obtain ⟨⟨hbehind, hcounts⟩, -⟩ :=
      (source.nextSignificant_eq_some_iff_isLeast start offset).1 hfound
    exact h offset hbehind hcounts

/-- For every text, from every offset on, and whether or not comments are skipped, the search comes
to an end. It finds the least offset whose byte is not blank and, where comments are skipped, part
of no comment, and nothing if there is no such offset. In a string, a template or a regular
expression all that matters is that the byte is not blank. -/
theorem nextSignificant_finds_least (source : Source) (start : Nat) :
    (WellFounded fun next offset => source.Passes offset next) ∧
    (∀ offset, source.nextSignificant start = some offset ↔
      IsLeast {i | start ≤ i ∧ source.Counts i} offset) ∧
    (source.nextSignificant start = none ↔ ∀ i, start ≤ i → ¬source.Counts i) ∧
    ∀ trivia ∈ source.trivia, trivia.kind = .literal → ∀ offset,
      trivia.start ≤ offset → offset < trivia.finish →
        (source.Counts offset ↔ ∃ b, source.byteAt offset = some b ∧ isBlankByte b = false) :=
  ⟨source.wellFounded_passes, source.nextSignificant_eq_some_iff_isLeast start,
    source.nextSignificant_eq_none_iff start,
    fun _ hmem hkind _ hstart hfinish => counts_iff_of_literal hmem hkind hstart hfinish⟩

/-- Two comments that touch, with a blank string behind them. The search begins in the first one, in
the middle of a character. -/
example : (Source.ofString "/*é*//**/' '" .skipTrivia).nextSignificant 3 = some 10 := by
  decide +kernel

end Source

end Concretion
