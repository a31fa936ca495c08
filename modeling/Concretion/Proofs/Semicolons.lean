import Concretion.Proofs.Significance
import Concretion.Proofs.Spelled
import Concretion.Proofs.Trivia

/-!
# Semicolons that end statements

Whether a semicolon ends a statement is read off two places: the byte in front of the offset at
which the statement finishes, and the next significant byte from there on. Only the second search
passes over comments, and neither of them looks whether its byte belongs to a comment or a literal.

- `Source.significant`: an offset that holds neither blank space nor a part of a comment.
- `Source.nextSignificant_eq_some_iff`: the next significant offset is the first one.
- `Source.Probes`: the two places at which a semicolon is looked for.
- `Source.endsWithSemicolon_iff`: a semicolon that is found belongs to the code unless the offset
  lies inside or at the end of a comment or literal.
-/

namespace Concretion

open Text

/-! ## How comments and literals begin -/

namespace Scan

/-- The bytes that a comment or a literal can begin with: a slash, a quote, a backtick, and the
brace that ends a substitution. -/
def openers : List UInt8 := [0x2F, 0x27, 0x22, 0x60, 0x7D]

/-- A step that finds something starts with one of these bytes. -/
theorem step_opener {lead : List UInt8} {depths : List Nat} {b : UInt8} {rest : List UInt8}
    {kind : TriviaKind} (h : (step lead depths b rest).found = some kind) : b ∈ openers := by
  by_contra hother
  simp only [openers, List.mem_cons, List.not_mem_nil, or_false, not_or] at hother
  obtain ⟨hslash, hquote, hdouble, htick, hbrace⟩ := hother
  -- what is left are an opening brace, blank space and other code
  simp [step, hslash, hquote, hdouble, htick, hbrace] at h
  split at h
  · cases depths <;> cases h
  · split at h <;> cases h

end Scan

namespace Source

variable {source : Source}

/-- Every comment and every literal begins with one of these bytes. -/
theorem opener_of_mem_trivia {trivia : Trivia} (h : trivia ∈ source.trivia) :
    ∃ b ∈ Scan.openers, source.byteAt trivia.start = some b := by
  obtain ⟨passed, b, more, lead, depths, hbytes, hfound, hstart, -⟩ :=
    Scan.exists_step_of_mem (source.mem_trivia.1 h)
  refine ⟨b, Scan.step_opener hfound, ?_⟩
  show source.bytes[trivia.start]? = some b
  rw [← Array.getElem?_toList, hbytes, hstart, Nat.zero_add,
    List.getElem?_append_right (Nat.le_refl _), Nat.sub_self]
  rfl

/-! ## Significant offsets -/

/-- Does the offset hold a byte that is neither blank nor part of a comment? -/
def significant (source : Source) (offset : Nat) : Bool :=
  (source.byteAt offset).any (!isBlankByte ·) && !source.inComment offset

/-- The offset is the first significant one from `start` on. -/
structure FirstSignificant (source : Source) (start offset : Nat) : Prop where
  behind : start ≤ offset
  significant : source.significant offset = true
  first : ∀ i, start ≤ i → i < offset → source.significant i = false

theorem significant_of_inComment {offset : Nat} (h : source.inComment offset = true) :
    source.significant offset = false := by
  rw [significant, h, Bool.not_true, Bool.and_false]

theorem significant_of_code {offset : Nat} {b : UInt8} (hbyte : source.byteAt offset = some b)
    (hcode : source.inComment offset = false) :
    source.significant offset = !isBlankByte b := by
  rw [significant, hbyte, hcode, Option.any_some, Bool.not_false, Bool.and_true]

/-- A byte of the code is significant unless it is blank. -/
theorem significant_of_codeAt {offset : Nat} {b : UInt8} (hblank : isBlankByte b = false)
    (h : source.codeAt b offset = true) : source.significant offset = true := by
  obtain ⟨hbyte, htrivia⟩ := Bool.and_eq_true_iff.1 h
  have hcode : source.inComment offset = false := by
    rw [inComment, Option.isNone_iff_eq_none.1 htrivia, Option.any_none]
  rw [significant_of_code (beq_iff_eq.1 hbyte) hcode, hblank, Bool.not_false]

/-- What opens a literal is significant. -/
theorem significant_of_literal {trivia : Trivia} (hmem : trivia ∈ source.trivia)
    (hkind : trivia.kind = .literal) : source.significant trivia.start = true := by
  obtain ⟨b, hb, hbyte⟩ := opener_of_mem_trivia hmem
  have hblank : ∀ b ∈ Scan.openers, isBlankByte b = false := by simp [Scan.openers, isBlankByte]
  have hcode := source.inComment_of_literal hmem hkind (Nat.le_refl _)
    (source.trivia_inside hmem).1
  rw [significant_of_code hbyte hcode, hblank b hb, Bool.not_false]

/-- Where comments are skipped, the significant offsets are those that the search stops at. -/
theorem significant_iff_counts (hmode : source.mode = .skipTrivia) {offset : Nat} :
    source.significant offset = true ↔ source.Counts offset := by
  constructor
  · intro h
    obtain ⟨hsolid, hcode⟩ := Bool.and_eq_true_iff.1 h
    obtain ⟨b, hbyte, hblank⟩ := (Option.any_eq_true _ _).1 hsolid
    rw [Bool.not_eq_true'] at hblank hcode
    exact counts_of_byte hbyte hblank fun _ => hcode
  · intro h
    obtain ⟨b, hbyte, hblank⟩ := h.solid
    rw [significant_of_code hbyte (h.inComment hmode), hblank, Bool.not_false]

/-- The next significant offset is the first one. -/
theorem nextSignificant_eq_some_iff (hmode : source.mode = .skipTrivia) {start offset : Nat} :
    source.nextSignificant start = some offset ↔ source.FirstSignificant start offset := by
  rw [nextSignificant_eq_some_iff_isLeast]
  constructor
  · rintro ⟨⟨hbehind, hcounts⟩, hleast⟩
    refine ⟨hbehind, (significant_iff_counts hmode).2 hcounts, fun i hi hlt => ?_⟩
    rw [Bool.eq_false_iff]
    intro hsignificant
    have hle := hleast ⟨hi, (significant_iff_counts hmode).1 hsignificant⟩
    exact Nat.not_lt.2 hle hlt
  · intro h
    refine ⟨⟨h.behind, (significant_iff_counts hmode).1 h.significant⟩, ?_⟩
    rintro i ⟨hi, hcounts⟩
    by_contra hlt
    have hno := h.first i hi (Nat.not_le.1 hlt)
    rw [(significant_iff_counts hmode).2 hcounts] at hno
    cases hno

/-! ## Where a semicolon is looked for -/

/-- For a statement that finishes at `finish` a semicolon is looked for at the offset. -/
def Probes (source : Source) (finish offset : Nat) : Prop :=
  offset + 1 = finish ∨ source.FirstSignificant finish offset

/-- Both places are looked at, whatever is around them. -/
theorem endsWithSemicolon_iff_probes (hmode : source.mode = .skipTrivia) {finish : Nat} :
    source.endsWithSemicolon finish = true ↔
      ∃ offset, source.Probes finish offset ∧ source.byteAt offset = some 0x3B := by
  rw [endsWithSemicolon, Bool.or_eq_true, Bool.and_eq_true, bne_iff_ne, beq_iff_eq, beq_iff_eq,
    Option.bind_eq_some_iff]
  simp only [nextSignificant_eq_some_iff hmode]
  constructor
  · rintro (⟨hzero, hbyte⟩ | ⟨offset, hfirst, hbyte⟩)
    · exact ⟨finish - 1, .inl (by omega), hbyte⟩
    · exact ⟨offset, .inr hfirst, hbyte⟩
  · rintro ⟨offset, rfl | hfirst, hbyte⟩
    · exact .inl ⟨Nat.succ_ne_zero offset, hbyte⟩
    · exact .inr ⟨offset, hfirst, hbyte⟩

/-- A semicolon inside of the comment or literal is taken for the end of a statement. The statement
finishes inside of it too, or where it ends. If it is a comment, the semicolon is the byte in front
of this offset. -/
structure Mistakes (source : Source) (finish : Nat) (trivia : Trivia) (offset : Nat) : Prop where
  recorded : trivia ∈ source.trivia
  byte : source.byteAt offset = some 0x3B
  inside : trivia.start < offset ∧ offset < trivia.finish
  around : trivia.start < finish ∧ finish ≤ trivia.finish
  probes : offset + 1 = finish ∨ trivia.kind = .literal ∧ source.FirstSignificant finish offset

/-- A semicolon that is found in a comment or literal is none of the code. -/
theorem Probes.mistakes {finish offset : Nat} (h : source.Probes finish offset)
    (hbyte : source.byteAt offset = some 0x3B) {trivia : Trivia}
    (haround : source.triviaAt offset = some trivia) : source.Mistakes finish trivia offset := by
  obtain ⟨hmem, hstart, hfinish⟩ := source.triviaAt_eq_some_iff.1 haround
  -- no comment and no literal begins with a semicolon
  have hopener : trivia.start ≠ offset := by
    rintro rfl
    obtain ⟨b, hb, hopens⟩ := opener_of_mem_trivia hmem
    rw [hbyte] at hopens
    cases hopens
    simp [Scan.openers] at hb
  have hlow : trivia.start < offset := Nat.lt_of_le_of_ne hstart hopener
  rcases h with rfl | hfirst
  · exact ⟨hmem, hbyte, ⟨hlow, hfinish⟩, ⟨by omega, hfinish⟩, .inl rfl⟩
  · have hkind : trivia.kind = .literal := by
      cases hkind : trivia.kind with
      | literal => rfl
      | comment =>
        have hcomment := source.inComment_iff.2 ⟨trivia, hmem, hkind, hstart, hfinish⟩
        have hno := significant_of_inComment hcomment
        rw [hfirst.significant] at hno
        cases hno
    -- a literal that began from there on would have been met first
    have hbefore : trivia.start < finish := by
      by_contra hge
      have hno := hfirst.first trivia.start (Nat.not_lt.1 hge) hlow
      rw [significant_of_literal hmem hkind] at hno
      cases hno
    exact ⟨hmem, hbyte, ⟨hlow, hfinish⟩, ⟨hbefore, hfirst.behind.trans hfinish.le⟩,
      .inr ⟨hkind, hfirst⟩⟩

/-- A statement is taken to end with a semicolon just if a semicolon of the code stands in front of
the offset at which it finishes, or is the first significant byte from there on, or if there is such
a semicolon inside of a comment or literal that the offset lies in or ends. Where it does not, the
semicolon belongs to the code. -/
theorem endsWithSemicolon_iff (hmode : source.mode = .skipTrivia) (finish : Nat) :
    (source.endsWithSemicolon finish = true ↔
      (∃ offset, source.Probes finish offset ∧ source.codeAt 0x3B offset = true) ∨
        ∃ trivia offset, source.Mistakes finish trivia offset) ∧
    ((∀ trivia ∈ source.trivia, finish ≤ trivia.start ∨ trivia.finish < finish) →
      (source.endsWithSemicolon finish = true ↔
        ∃ offset, source.Probes finish offset ∧ source.codeAt 0x3B offset = true)) := by
  have hends : source.endsWithSemicolon finish = true ↔
      (∃ offset, source.Probes finish offset ∧ source.codeAt 0x3B offset = true) ∨
        ∃ trivia offset, source.Mistakes finish trivia offset := by
    rw [endsWithSemicolon_iff_probes hmode]
    constructor
    · rintro ⟨offset, hprobes, hbyte⟩
      cases haround : source.triviaAt offset with
      | none => exact .inl ⟨offset, hprobes, by rw [codeAt, hbyte, haround]; rfl⟩
      | some trivia => exact .inr ⟨trivia, offset, hprobes.mistakes hbyte haround⟩
    · rintro (⟨offset, hprobes, hcode⟩ | ⟨trivia, offset, h⟩)
      · exact ⟨offset, hprobes, beq_iff_eq.1 (Bool.and_eq_true_iff.1 hcode).1⟩
      · exact ⟨offset, h.probes.imp_right And.right, h.byte⟩
  refine ⟨hends, fun hapart => hends.trans (or_iff_left ?_)⟩
  rintro ⟨trivia, offset, h⟩
  have haround := h.around
  have hclear := hapart trivia h.recorded
  omega

/-- An assignment without a semicolon, in front of a comment that ends with one. Where the number
ends none is found, but where the comment does, the last byte of the comment is taken for it. -/
theorem endsWithSemicolon_behind_comment :
    let source := Source.ofString "x = 5 // done;" .skipTrivia
    source.mode = .skipTrivia ∧ source.endsWithSemicolon 5 = false ∧
      source.endsWithSemicolon 14 = true ∧ (∃ trivia, source.Mistakes 14 trivia 13) ∧
      ¬∃ offset, source.Probes 14 offset ∧ source.codeAt 0x3B offset = true := by
  intro source
  have hcode : ∀ offset < source.size, source.codeAt 0x3B offset = false := by decide +kernel
  have hnone : ∀ finish, ¬∃ offset, source.Probes finish offset ∧
      source.codeAt 0x3B offset = true := by
    rintro finish ⟨offset, -, hsemicolon⟩
    have hbyte : source.byteAt offset = some 0x3B :=
      beq_iff_eq.1 (Bool.and_eq_true_iff.1 hsemicolon).1
    rw [hcode offset (Array.getElem?_eq_some_iff.1 hbyte).1] at hsemicolon
    cases hsemicolon
  have hends : source.endsWithSemicolon 14 = true := by decide +kernel
  have htable : source.trivia = #[⟨.comment, 6, 14⟩] := by decide +kernel
  have hclear : ∀ trivia ∈ source.trivia, 5 ≤ trivia.start ∨ trivia.finish < 5 := by
    rw [htable]
    simp
  obtain ⟨trivia, offset, h⟩ :=
    ((endsWithSemicolon_iff rfl 14).1.1 hends).resolve_left (hnone 14)
  -- the comment is all that is recorded, and it is no literal
  obtain rfl : offset = 13 := by
    have hmem := h.recorded
    rw [htable, Array.mem_singleton] at hmem
    rcases h.probes with hlast | ⟨hkind, -⟩
    · omega
    · rw [hmem] at hkind
      cases hkind
  refine ⟨rfl, ?_, hends, ⟨trivia, h⟩, hnone 14⟩
  rw [Bool.eq_false_iff, ne_eq, (endsWithSemicolon_iff rfl 5).2 hclear]
  exact hnone 5

end Source

end Concretion
