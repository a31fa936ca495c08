import Concretion.Proofs.Checked
import Concretion.Proofs.Written.Bytes
import Concretion.Recovery.Locate
import Mathlib.Data.List.Find

/-!
# Reading past comments

Two texts that differ in their comments only. A search that skips comments may still look at bytes
of a comment: at those of a token that would run into one, at the bytes beside a word, and at the
byte in front of an offset. None of these tells the two texts apart, for a comment begins with a
slash, and ends with one unless the line or the text ends.

- `Source.inComment`: is the offset inside of a comment?
- `Source.Twins`: two ASCII texts with the same comments and literals that agree outside of
  comments.
- `Source.Alike`: the two texts have the same byte at an offset.
- `Source.Twins.startsAt_of_code`, `Source.Twins.startsAt_of_end`: a token that begins or ends
  outside of a comment does not run into one.
- `Source.Twins.wordMatchesAt_eq`, `Source.Twins.nextSignificant_eq` and so on: whatever is read of
  the one text is read of the other.
-/

namespace Concretion

open Text

/-! ## How comments begin and end -/

namespace Scan

/-- A line comment stops at a line feed or with the text. -/
theorem lineCommentTail_stops (rest : List UInt8) :
    lineCommentTail rest = rest.length ∨ rest[lineCommentTail rest]? = some 0x0A := by
  induction rest with
  | nil => exact .inl rfl
  | cons b rest ih =>
    by_cases hfeed : b = 0x0A
    · right
      subst hfeed
      rfl
    · have hnext : lineCommentTail (b :: rest) = lineCommentTail rest + 1 := by
        simp [lineCommentTail, hfeed]
      rw [hnext, List.length_cons, List.getElem?_cons_succ]
      exact ih.imp_left (congrArg (· + 1))

/-- A block comment stops behind a slash or with the text. -/
theorem blockCommentTail_stops (rest : List UInt8) :
    blockCommentTail rest = rest.length ∨
      ∃ extra, blockCommentTail rest = extra + 1 ∧ rest[extra]? = some 0x2F := by
  induction rest with
  | nil => exact .inl rfl
  | cons b rest ih =>
    rw [blockCommentTail]
    split
    · next hclosed =>
      rw [Bool.and_eq_true, beq_iff_eq, beq_iff_eq] at hclosed
      refine .inr ⟨1, rfl, ?_⟩
      rw [List.getElem?_cons_succ, ← List.head?_eq_getElem?]
      exact hclosed.2
    · rcases ih with hend | ⟨extra, hextra, hslash⟩
      · exact .inl (by rw [hend, List.length_cons])
      · exact .inr ⟨extra + 1, by rw [hextra], by rwa [List.getElem?_cons_succ]⟩

/-- What a step reads if it finds a comment. -/
theorem step_comment {lead : List UInt8} {depths : List Nat} {b : UInt8} {rest : List UInt8}
    (h : (step lead depths b rest).found = some .comment) :
    b = 0x2F ∧ ((step lead depths b rest).extra = rest.length ∨
      (b :: rest)[(step lead depths b rest).extra]? = some 0x2F ∨
        rest[(step lead depths b rest).extra]? = some 0x0A) := by
  have htemplate : ∀ depths, (Step.template rest depths).found ≠ some .comment := by
    intro depths
    rw [Step.template]
    split <;> simp [Step.literal]
  unfold step at h ⊢
  split
  · next hline =>
    rw [Bool.and_eq_true, beq_iff_eq] at hline
    exact ⟨hline.1, (lineCommentTail_stops rest).imp_right .inr⟩
  · next hline =>
    rw [if_neg hline] at h
    split
    · next hblock =>
      rw [Bool.and_eq_true, beq_iff_eq, beq_iff_eq] at hblock
      obtain ⟨after, rfl⟩ : ∃ after, rest = 0x2A :: after :=
        List.head?_eq_some_iff.1 hblock.2
      refine ⟨hblock.1, ?_⟩
      rcases blockCommentTail_stops after with hend | ⟨extra, hextra, hslash⟩
      · exact .inl (congrArg (· + 1) hend)
      · refine .inr (.inl ?_)
        show (b :: 0x2A :: after)[blockCommentTail after + 1]? = some 0x2F
        rwa [hextra, List.getElem?_cons_succ, List.getElem?_cons_succ]
    · next hblock =>
      -- no other step finds a comment
      rw [if_neg hblock] at h
      exfalso
      revert h
      split
      · split <;> simp [Step.literal, Step.code]
      · split
        · simp [Step.literal]
        · split
          · exact htemplate _
          · split
            · split <;> simp [Step.code]
            · split
              · split
                · simp [Step.code]
                · exact htemplate _
                · simp [Step.code]
              · split <;> simp [Step.code]

/-- Among the bytes from an offset on, a comment begins with a slash. It ends with one too, or just
before a line feed, or with the text. -/
def Delimited (offset : Nat) (rest : List UInt8) (comment : Trivia) : Prop :=
  rest[comment.start - offset]? = some 0x2F ∧
    (comment.finish = offset + rest.length ∨ rest[comment.finish - 1 - offset]? = some 0x2F ∨
      rest[comment.finish - offset]? = some 0x0A)

/-- What lies behind the bytes that a step reads may be counted from the step. -/
theorem Delimited.of_drop {offset extra : Nat} {b : UInt8} {rest : List UInt8} {comment : Trivia}
    (h : Delimited (offset + 1 + extra) (rest.drop extra) comment) (hextra : extra ≤ rest.length)
    (hbehind : offset + 1 + extra ≤ comment.start) (hlength : comment.start < comment.finish) :
    Delimited offset (b :: rest) comment := by
  have hbyte : ∀ place, offset + 1 + extra ≤ place →
      (rest.drop extra)[place - (offset + 1 + extra)]? = (b :: rest)[place - offset]? := by
    intro place hplace
    have hsum : place - offset = extra + (place - (offset + 1 + extra)) + 1 := by omega
    rw [List.getElem?_drop, hsum, List.getElem?_cons_succ]
  rw [Delimited, hbyte _ hbehind, hbyte _ (by omega), hbyte _ (by omega), List.length_drop] at h
  rw [Delimited, List.length_cons]
  exact ⟨h.1, h.2.imp_left fun hall => by omega⟩

/-- The scan begins a comment at a slash only, so this holds of all that it finds. -/
theorem scanFrom_delimited {offset : Nat} {before lead : List UInt8} {depths : List Nat}
    {rest : List UInt8} {trivia : Trivia} (h : trivia ∈ scanFrom offset before lead depths rest)
    (hcomment : trivia.kind = .comment) : Delimited offset rest trivia := by
  fun_induction scanFrom offset before lead depths rest with
  | case1 => cases h
  | case2 offset before lead depths b rest s finish read later kind hfound ih =>
    rcases List.mem_cons.1 h with rfl | h
    · cases hcomment
      obtain ⟨hslash, hend⟩ := step_comment hfound
      have hlast : offset + 1 + s.extra - 1 - offset = s.extra := by omega
      have hbehind : offset + 1 + s.extra - offset = s.extra + 1 := by omega
      refine ⟨by rw [Nat.sub_self, hslash]; rfl, ?_⟩
      show offset + 1 + s.extra = _ ∨ (b :: rest)[offset + 1 + s.extra - 1 - offset]? = _ ∨
        (b :: rest)[offset + 1 + s.extra - offset]? = _
      rw [hlast, hbehind, List.length_cons, List.getElem?_cons_succ]
      refine hend.imp_left fun hall => ?_
      have hall : s.extra = rest.length := hall
      omega
    · have hinside := scanFrom_inside h
      exact (ih h).of_drop (step_extra_le lead depths b rest) hinside.1 hinside.2.1
  | case3 offset before lead depths b rest s finish read later hfound ih =>
    have hinside := scanFrom_inside h
    exact (ih h).of_drop (step_extra_le lead depths b rest) hinside.1 hinside.2.1

end Scan

namespace Text

/-- The word is not empty and has no slash, so it shares no byte with the opening of a comment. -/
def Clear (word : String) : Prop := word ≠ "" ∧ '/' ∉ word.toList

instance (word : String) : Decidable (Clear word) := inferInstanceAs (Decidable (_ ∧ _))

/-- A clear word has at least one byte. -/
theorem Clear.pattern_ne_nil {word : String} (h : Clear word) : pattern word ≠ [] := by
  intro hnil
  have hsize : word.utf8ByteSize = 0 := congrArg List.length hnil
  exact h.1 (String.utf8ByteSize_eq_zero_iff.1 hsize)

/-- No byte of a clear word is a slash, for the bytes of other characters are not ASCII. -/
theorem Clear.slash {word : String} (h : Clear word) : 0x2F ∉ pattern word := by
  intro hslash
  rw [pattern_eq] at hslash
  obtain ⟨c, hc, hbyte⟩ := List.mem_flatMap.1 hslash
  have hsame : c = '/' := eq_of_mem_utf8EncodeChar rfl hbyte
  exact h.2 (hsame ▸ hc)

end Text

/-- Bytes are read as a text just if they are the bytes of the text. -/
theorem Text.fromUTF8_eq_some_iff {bytes : Array UInt8} {text : String} :
    String.fromUTF8? ⟨bytes⟩ = some text ↔ bytes = encoded text := by
  constructor
  · intro hread
    rw [String.fromUTF8?] at hread
    split at hread
    · rw [← Option.some.inj hread]
      rfl
    · cases hread
  · rintro rfl
    have hvalid := fromUTF8_bytesOf text.toList
    rwa [String.ofList_toList, ← pattern_eq, pattern, Array.toArray_toList] at hvalid

namespace Source

/-- Is the offset inside of a comment? -/
def inComment (source : Source) (offset : Nat) : Bool :=
  (source.triviaAt offset).any (·.kind == .comment)

section Comments

variable (source : Source)

/-- The binary search finds a comment if there is one around the offset. -/
theorem inComment_iff {offset : Nat} :
    source.inComment offset = true ↔ ∃ trivia ∈ source.trivia, trivia.kind = .comment ∧
      trivia.start ≤ offset ∧ offset < trivia.finish := by
  rw [inComment, Option.any_eq_true]
  constructor
  · rintro ⟨trivia, htrivia, hkind⟩
    obtain ⟨hmem, hstart, hfinish⟩ := source.triviaAt_eq_some_iff.1 htrivia
    exact ⟨trivia, hmem, eq_of_beq hkind, hstart, hfinish⟩
  · rintro ⟨trivia, hmem, hkind, hstart, hfinish⟩
    refine ⟨trivia, source.triviaAt_eq_some_iff.2 ⟨hmem, hstart, hfinish⟩, ?_⟩
    rw [hkind]
    rfl

/-- What searches do not skip is no comment. -/
theorem inComment_of_inTrivia {offset : Nat} (hmode : source.mode = .skipTrivia)
    (h : source.inTrivia offset = false) : source.inComment offset = false := by
  rw [inTrivia, hmode, Bool.and_eq_false_iff] at h
  rcases h with h | h
  · cases h
  · rw [Option.isSome_eq_false_iff, Option.isNone_iff_eq_none] at h
    rw [inComment, h]
    rfl

/-- A literal is no comment. -/
theorem inComment_of_literal {trivia : Trivia} (hmem : trivia ∈ source.trivia)
    (hkind : trivia.kind = .literal) {offset : Nat} (hstart : trivia.start ≤ offset)
    (hfinish : offset < trivia.finish) : source.inComment offset = false := by
  rw [inComment, source.triviaAt_eq_some_iff.2 ⟨hmem, hstart, hfinish⟩, Option.any_some, hkind]
  rfl

/-- What the scan says of its bytes, in terms of offsets. -/
theorem comment_bytes {trivia : Trivia} (hmem : trivia ∈ source.trivia)
    (hkind : trivia.kind = .comment) :
    source.byteAt trivia.start = some 0x2F ∧
      (trivia.finish = source.size ∨ source.byteAt (trivia.finish - 1) = some 0x2F ∨
        source.byteAt trivia.finish = some 0x0A) := by
  have hdelimited := Scan.scanFrom_delimited (source.mem_trivia.1 hmem) hkind
  simpa only [Scan.Delimited, byteAt, size, Nat.sub_zero, Nat.zero_add, Array.length_toList,
    Array.getElem?_toList] using hdelimited

/-- Behind code a comment can only begin. -/
theorem slash_of_inComment {offset : Nat} (hcode : source.inComment offset = false)
    (h : source.inComment (offset + 1) = true) : source.byteAt (offset + 1) = some 0x2F := by
  obtain ⟨trivia, hmem, hkind, hstart, hfinish⟩ := source.inComment_iff.1 h
  have hbegins : trivia.start = offset + 1 := by
    by_contra hne
    have hcomment : source.inComment offset = true :=
      source.inComment_iff.2 ⟨trivia, hmem, hkind, by omega, by omega⟩
    rw [hcomment] at hcode
    cases hcode
  rw [← hbegins]
  exact (source.comment_bytes hmem hkind).1

/-- In front of code a comment ends, with a slash or with the line. -/
theorem slash_or_feed {offset : Nat} (hsize : offset + 1 < source.size)
    (hcode : source.inComment (offset + 1) = false) (h : source.inComment offset = true) :
    source.byteAt offset = some 0x2F ∨ source.byteAt (offset + 1) = some 0x0A := by
  obtain ⟨trivia, hmem, hkind, hstart, hfinish⟩ := source.inComment_iff.1 h
  have hends : trivia.finish = offset + 1 := by
    by_contra hne
    have hcomment : source.inComment (offset + 1) = true :=
      source.inComment_iff.2 ⟨trivia, hmem, hkind, by omega, by omega⟩
    rw [hcomment] at hcode
    cases hcode
  rcases (source.comment_bytes hmem hkind).2 with hend | hslash | hfeed
  · omega
  · left
    rwa [hends] at hslash
  · right
    rwa [hends] at hfeed

end Comments

/-! ## Texts that differ in their comments -/

/-- Two texts have the same byte at an offset. -/
def Alike (a b : Source) (offset : Nat) : Prop := a.byteAt offset = b.byteAt offset

/-- Two ASCII texts in which searches skip the same comments and literals, and which have the same
bytes outside of comments. -/
structure Twins (a b : Source) : Prop where
  skips : a.mode = .skipTrivia ∧ b.mode = .skipTrivia
  size : a.size = b.size
  trivia : a.trivia = b.trivia
  ascii : (∀ byte ∈ a.bytes, byte < 0x80) ∧ ∀ byte ∈ b.bytes, byte < 0x80
  code : ∀ offset < a.size, a.inComment offset = false → a.Alike b offset

/-- What begins in code and has no slash behind its first byte does not run into a comment. -/
theorem inComment_of_startsAt {source : Source} {pattern : List UInt8} {offset : Nat}
    (h : startsAt source.bytes pattern offset = true) (hcode : source.inComment offset = false)
    (hslash : 0x2F ∉ pattern.tail) {i : Nat} (hi : i < pattern.length) :
    source.inComment (offset + i) = false := by
  induction i with
  | zero => exact hcode
  | succ i ih =>
    rw [Bool.eq_false_iff]
    intro hcomment
    have hbyte := source.slash_of_inComment (ih (Nat.lt_of_succ_lt hi)) hcomment
    rw [Nat.add_assoc, source.startsAt_iff.1 h (i + 1) hi] at hbyte
    refine hslash (List.mem_of_getElem? (i := i) ?_)
    rw [List.getElem?_tail, List.getElem?_eq_getElem hi, hbyte]

/-- What ends in code and has neither a slash nor a line feed does not begin in a comment. -/
theorem inComment_of_startsAt_last {source : Source} {pattern : List UInt8} {offset : Nat}
    (h : startsAt source.bytes pattern offset = true)
    (hcode : source.inComment (offset + pattern.length - 1) = false) (hslash : 0x2F ∉ pattern)
    (hfeed : 0x0A ∉ pattern) {i : Nat} (hi : i < pattern.length) :
    source.inComment (offset + i) = false := by
  have hstart := source.startsAt_iff.1 h
  -- the induction goes back from the last byte
  obtain ⟨back, hback⟩ : ∃ back, i + 1 + back = pattern.length := ⟨_, Nat.add_sub_cancel' hi⟩
  induction back generalizing i with
  | zero =>
    have hlast : offset + pattern.length - 1 = offset + i := by omega
    rwa [hlast] at hcode
  | succ back ih =>
    rw [Bool.eq_false_iff]
    intro hcomment
    have hnext : i + 1 < pattern.length := by omega
    have hbyte := hstart (i + 1) hnext
    have hsize : offset + i + 1 < source.size := (Array.getElem?_eq_some_iff.1 hbyte).1
    rcases source.slash_or_feed hsize (ih hnext (by omega)) hcomment with hends | hends
    · rw [hstart i hi] at hends
      exact hslash (Option.some.inj hends ▸ List.getElem_mem hi)
    · rw [Nat.add_assoc, hbyte] at hends
      exact hfeed (Option.some.inj hends ▸ List.getElem_mem hnext)

/-! ## The next significant byte -/

section Significant

variable {source : Source} {offset : Nat}

/-- A comment is not significant. -/
theorem nextSignificant_of_comment (hmode : source.mode = .skipTrivia) {trivia : Trivia}
    (haround : source.triviaAt offset = some trivia) (hkind : trivia.kind = .comment) :
    source.nextSignificant offset = source.nextSignificant trivia.finish := by
  obtain ⟨hmem, -, hfinish⟩ := source.triviaAt_eq_some_iff.1 haround
  have hinside : offset < source.bytes.size := hfinish.trans_le (source.trivia_inside hmem).2
  have hskipped : source.skipped offset = some trivia := by
    rw [skipped, haround, Option.filter_some, hkind, hmode]
    rfl
  rw [nextSignificant_of_byte (Array.getElem?_eq_getElem hinside), hskipped]
  rfl

/-- Where nothing is passed over, the byte decides. -/
theorem nextSignificant_of_code {byte : UInt8} (hbyte : source.byteAt offset = some byte)
    (h : source.mode = .skipTrivia → source.inComment offset = false) :
    source.nextSignificant offset =
      if isBlankByte byte then source.nextSignificant (offset + 1) else some offset := by
  have hskipped : source.skipped offset = none := by
    rw [skipped, Option.filter_eq_none_iff]
    intro trivia haround hseen
    obtain ⟨hkind, hmode⟩ := Bool.and_eq_true_iff.1 hseen
    have hcode := h (eq_of_beq hmode)
    rw [inComment, haround, Option.any_some, hkind] at hcode
    cases hcode
  rw [nextSignificant_of_byte hbyte, hskipped]
  rfl

end Significant

/-- In an ASCII text every offset is the start of a character. -/
theorem isBoundary_of_ascii {source : Source} (h : ∀ byte ∈ source.bytes, byte < 0x80)
    (offset : Nat) : source.isBoundary offset = decide (offset ≤ source.size) := by
  rw [isBoundary, Text.isBoundary]
  rcases Nat.lt_trichotomy offset source.bytes.size with hlt | heq | hgt
  · rw [Array.getElem?_eq_getElem hlt]
    have hlow : source.bytes[offset] < 0x80 := h _ (Array.getElem_mem hlt)
    have hfalse : isContinuation source.bytes[offset] = false := by
      rw [isContinuation, Bool.and_eq_false_iff]
      exact .inl (decide_eq_false (UInt8.not_le.2 hlow))
    simp only [hfalse, Bool.not_false, Bool.or_true]
    exact (decide_eq_true (Nat.le_of_lt hlt)).symm
  · rw [Array.getElem?_eq_none (Nat.le_of_eq heq.symm), heq]
    simp [size]
  · rw [Array.getElem?_eq_none (Nat.le_of_lt hgt)]
    simp only [size, Nat.not_le.2 hgt, decide_false, beq_eq_false_iff_ne]
    omega

/-- A text that stands in an ASCII text is read there. -/
theorem slice_eq_some_iff {source : Source} (h : ∀ byte ∈ source.bytes, byte < 0x80)
    {offset : Nat} {text : String} :
    source.slice offset (offset + text.utf8ByteSize) = some text ↔
      offset + text.utf8ByteSize ≤ source.size ∧
        startsAt source.bytes (pattern text) offset = true := by
  have hlength : (pattern text).length = text.utf8ByteSize := rfl
  by_cases hsize : offset + text.utf8ByteSize ≤ source.size
  · have hfits : (offset ≤ offset + text.utf8ByteSize && offset + text.utf8ByteSize ≤ source.size &&
        source.isBoundary offset && source.isBoundary (offset + text.utf8ByteSize)) = true := by
      simp only [isBoundary_of_ascii h, Bool.and_eq_true, decide_eq_true_eq]
      omega
    rw [slice, if_pos hfits, Text.fromUTF8_eq_some_iff, startsAt_eq, List.isPrefixOf_iff_prefix,
      List.prefix_iff_eq_take, hlength, ← Array.toList_inj, Array.toList_extract,
      List.extract_eq_take_drop, Nat.add_sub_cancel_left]
    exact ⟨fun hbytes => ⟨hsize, hbytes.symm⟩, fun hbytes => hbytes.2.symm⟩
  · have hfits : ¬ (offset ≤ offset + text.utf8ByteSize &&
        offset + text.utf8ByteSize ≤ source.size && source.isBoundary offset &&
        source.isBoundary (offset + text.utf8ByteSize)) = true := by
      simp only [Bool.and_eq_true, decide_eq_true_eq]
      omega
    rw [slice, if_neg hfits]
    exact ⟨fun hnone => (by cases hnone), fun hfits => absurd hfits.1 hsize⟩

namespace Twins

variable {a b : Source} (twins : a.Twins b)
include twins

/-- Twins have the same comments and literals. -/
theorem triviaAt_eq (offset : Nat) : a.triviaAt offset = b.triviaAt offset := by
  have htest : a.endsBefore offset = b.endsBefore offset := by
    funext index
    rw [endsBefore, endsBefore, twins.trivia]
  simp only [triviaAt, htest, twins.trivia]

/-- So the same offsets are in comments. -/
theorem inComment_eq (offset : Nat) : a.inComment offset = b.inComment offset := by
  rw [inComment, inComment, twins.triviaAt_eq]

/-- So are those in comments or literals. -/
theorem inTrivia_eq (offset : Nat) : a.inTrivia offset = b.inTrivia offset := by
  rw [inTrivia, inTrivia, twins.triviaAt_eq, twins.skips.1, twins.skips.2]

/-- Outside of comments the texts agree. -/
theorem alike {offset : Nat} (h : a.inComment offset = false) : a.Alike b offset := by
  by_cases hsize : offset < a.size
  · exact twins.code offset hsize h
  · have hsize' : ¬ offset < b.size := twins.size ▸ hsize
    exact (Array.getElem?_eq_none (Nat.not_lt.1 hsize)).trans
      (Array.getElem?_eq_none (Nat.not_lt.1 hsize')).symm

theorem symm : b.Twins a where
  skips := twins.skips.symm
  size := twins.size.symm
  trivia := twins.trivia.symm
  ascii := twins.ascii.symm
  code offset _ h := (twins.alike (by rwa [twins.inComment_eq])).symm

/-- Behind code they agree too, for there a comment can only begin. -/
theorem alike_behind {offset : Nat} (h : a.inComment offset = false) :
    a.Alike b (offset + 1) := by
  cases hnext : a.inComment (offset + 1) with
  | false => exact twins.alike hnext
  | true =>
    have hcode : b.inComment offset = false := by rwa [← twins.inComment_eq]
    have hnext' : b.inComment (offset + 1) = true := by rwa [← twins.inComment_eq]
    exact (a.slash_of_inComment h hnext).trans (b.slash_of_inComment hcode hnext').symm

/-! ### Tokens -/

/-- Bytes that stand in code in the one text stand there in the other. -/
theorem startsAt_of_code {pattern : List UInt8} {offset : Nat}
    (h : startsAt a.bytes pattern offset = true)
    (hcode : ∀ i < pattern.length, a.inComment (offset + i) = false) :
    startsAt b.bytes pattern offset = true :=
  b.startsAt_iff.2 fun i hi => (twins.alike (hcode i hi)).symm.trans (a.startsAt_iff.1 h i hi)

/-- A pattern that starts in code cannot run into a comment, for that would begin with a slash. -/
theorem startsAt_eq {pattern : List UInt8} {offset : Nat} (hcode : a.inComment offset = false)
    (hslash : 0x2F ∉ pattern.tail) :
    startsAt a.bytes pattern offset = startsAt b.bytes pattern offset := by
  rw [Bool.eq_iff_iff]
  constructor
  · exact fun h => twins.startsAt_of_code h fun i hi => inComment_of_startsAt h hcode hslash hi
  · rw [twins.inComment_eq] at hcode
    exact fun h => twins.symm.startsAt_of_code h fun i hi => inComment_of_startsAt h hcode hslash hi

/-- A pattern that ends in code cannot come out of a comment, which would end in front of a line
feed or with a slash. -/
theorem startsAt_eq_of_last {pattern : List UInt8} {offset : Nat}
    (hcode : a.inComment (offset + pattern.length - 1) = false) (hslash : 0x2F ∉ pattern)
    (hfeed : 0x0A ∉ pattern) :
    startsAt a.bytes pattern offset = startsAt b.bytes pattern offset := by
  rw [Bool.eq_iff_iff]
  constructor
  · exact fun h => twins.startsAt_of_code h fun i hi =>
      inComment_of_startsAt_last h hcode hslash hfeed hi
  · rw [twins.inComment_eq] at hcode
    exact fun h => twins.symm.startsAt_of_code h fun i hi =>
      inComment_of_startsAt_last h hcode hslash hfeed hi

/-- A token is read in the one text just if it is read in the other. -/
theorem slice_beq {text : String} {offset : Nat}
    (h : startsAt a.bytes (pattern text) offset = startsAt b.bytes (pattern text) offset) :
    (a.slice offset (offset + text.utf8ByteSize) == some text) =
      (b.slice offset (offset + text.utf8ByteSize) == some text) := by
  rw [Bool.eq_iff_iff, beq_iff_eq, beq_iff_eq, slice_eq_some_iff twins.ascii.1,
    slice_eq_some_iff twins.ascii.2, twins.size, h]

/-- Where a search looks, the pattern starts in code. -/
theorem matchesAt_eq {pattern : List UInt8} (hslash : 0x2F ∉ pattern.tail) :
    a.matchesAt pattern = b.matchesAt pattern := by
  funext offset
  rw [matchesAt, matchesAt, ← twins.inTrivia_eq]
  cases htrivia : a.inTrivia offset with
  | true => rw [Bool.not_true, Bool.and_false, Bool.and_false]
  | false => rw [twins.startsAt_eq (a.inComment_of_inTrivia twins.skips.1 htrivia) hslash]

/-- In front of a letter that stands in code the texts agree, for there a comment ends with a
slash. -/
theorem alike_before {letter : UInt8} {offset : Nat} (hletter : isLetterByte letter = true)
    (hbyte : a.byteAt (offset + 1) = some letter) (hcode : a.inComment (offset + 1) = false) :
    a.Alike b offset := by
  have hsize : offset + 1 < a.size := (Array.getElem?_eq_some_iff.1 hbyte).1
  have hfeed : a.byteAt (offset + 1) ≠ some 0x0A := by
    rw [hbyte]
    rintro ⟨rfl⟩
    cases hletter
  cases hcomment : a.inComment offset with
  | false => exact twins.alike hcomment
  | true =>
    have hslash := (a.slash_or_feed hsize hcode hcomment).resolve_right hfeed
    rw [twins.alike hcode] at hfeed
    rw [twins.size] at hsize
    rw [twins.inComment_eq] at hcode hcomment
    exact hslash.trans ((b.slash_or_feed hsize hcode hcomment).resolve_right hfeed).symm

/-- The bytes beside a word agree. -/
theorem alike_beside {word : String} (hword : Clear word) (halphabetic : isAlphabetic word = true)
    {offset : Nat} (h : a.matchesAt (pattern word) offset = true) :
    (offset ≠ 0 → a.Alike b (offset - 1)) ∧ a.Alike b (offset + (pattern word).length) := by
  rw [matchesAt, Bool.and_eq_true, Bool.not_eq_true'] at h
  have hcode := a.inComment_of_inTrivia twins.skips.1 h.2
  have hpos : 0 < (pattern word).length := List.length_pos_iff.2 hword.pattern_ne_nil
  constructor
  · intro hzero
    obtain ⟨before, rfl⟩ := Nat.exists_eq_succ_of_ne_zero hzero
    have hletter : isLetterByte (pattern word)[0] = true :=
      List.all_eq_true.1 halphabetic _ (List.getElem_mem hpos)
    exact twins.alike_before hletter (a.startsAt_iff.1 h.1 0 hpos) hcode
  · have hlast := inComment_of_startsAt h.1 hcode (fun hslash => hword.slash
      (List.mem_of_mem_tail hslash)) (Nat.sub_lt hpos Nat.one_pos)
    have hbehind := twins.alike_behind hlast
    rwa [Nat.add_assoc, Nat.sub_add_cancel hpos] at hbehind

/-- A word stands in the one text just if it stands in the other, since a comment beside it shows
neither a letter nor a digit. -/
theorem wordMatchesAt_eq {word : String} (hword : Text.Clear word) :
    a.wordMatchesAt (isAlphabetic word) (pattern word) =
      b.wordMatchesAt (isAlphabetic word) (pattern word) := by
  have hmatches := twins.matchesAt_eq fun h => hword.slash (List.mem_of_mem_tail h)
  funext offset
  rw [wordMatchesAt, wordMatchesAt, ← hmatches]
  cases h : a.matchesAt (pattern word) offset with
  | false => rfl
  | true =>
    cases halphabetic : isAlphabetic word with
    | false => rfl
    | true =>
      obtain ⟨hbefore, hbehind⟩ := twins.alike_beside hword halphabetic h
      have hbehind : a.byteAt (offset + (pattern word).length) = _ := hbehind
      cases offset with
      | zero => rw [hbehind]; rfl
      | succ before =>
        have hbefore : a.byteAt (before + 1 - 1) = _ := hbefore (Nat.succ_ne_zero before)
        rw [hbehind, hbefore]

/-! ### Searches -/

section Searches

variable {token : String} (hslash : 0x2F ∉ (pattern token).tail)
include hslash

/-- Searches look at the same offsets and find the same there. -/
theorem find_eq (start finish : Nat) : a.find token start finish = b.find token start finish := by
  rw [find, find, twins.matchesAt_eq hslash, twins.size]

/-- So they do from the other end. -/
theorem findLast_eq (start finish : Nat) :
    a.findLast token start finish = b.findLast token start finish := by
  rw [findLast, findLast, twins.matchesAt_eq hslash, twins.size]

end Searches

section Words

variable {word : String} (hword : Clear word)
include hword

/-- A word stands at the same offsets of both texts. -/
theorem hasWordAt_eq : a.hasWordAt word = b.hasWordAt word := by
  funext offset
  rw [hasWordAt, hasWordAt, twins.wordMatchesAt_eq hword, twins.size]

/-- The search for a word goes through the same offsets. -/
theorem findWord_eq (start finish : Nat) :
    a.findWord word start finish = b.findWord word start finish := by
  rw [findWord, findWord, twins.wordMatchesAt_eq hword, twins.size]

/-- So it does from the other end. -/
theorem findLastWord_eq (start finish : Nat) :
    a.findLastWord word start finish = b.findLastWord word start finish := by
  rw [findLastWord, findLastWord, twins.wordMatchesAt_eq hword, twins.size]

end Words

/-- A report on a missing token names the window and the length of the text. -/
theorem missing_eq (context token : String) (start finish : Nat) :
    a.missing context token start finish = b.missing context token start finish := by
  rw [missing, missing, twins.size]

theorem locate_eq {token : String} (hslash : 0x2F ∉ (pattern token).tail) (context : String)
    (start finish : Nat) :
    a.locate context token start finish = b.locate context token start finish := by
  rw [locate, locate, twins.find_eq hslash, twins.missing_eq]

theorem locateLast_eq {token : String} (hslash : 0x2F ∉ (pattern token).tail) (context : String)
    (start finish : Nat) :
    a.locateLast context token start finish = b.locateLast context token start finish := by
  rw [locateLast, locateLast, twins.findLast_eq hslash, twins.missing_eq]

theorem locateWord_eq {word : String} (hword : Clear word) (context : String) (start finish : Nat) :
    a.locateWord context word start finish = b.locateWord context word start finish := by
  rw [locateWord, locateWord, twins.findWord_eq hword, twins.missing_eq]

theorem locateLastWord_eq {word : String} (hword : Clear word) (context : String)
    (start finish : Nat) :
    a.locateLastWord context word start finish = b.locateLastWord context word start finish := by
  rw [locateLastWord, locateLastWord, twins.findLastWord_eq hword, twins.missing_eq]

/-- Both the expected place and those in front of it are looked at. -/
theorem locateWordAtOrBefore_eq {word : String} (hword : Clear word) (context : String)
    (expected : Option Nat) (start finish : Nat) :
    a.locateWordAtOrBefore context word expected start finish =
      b.locateWordAtOrBefore context word expected start finish := by
  rw [locateWordAtOrBefore, locateWordAtOrBefore, twins.hasWordAt_eq hword,
    twins.locateLastWord_eq hword]

/-! ### Ranges -/

/-- In ASCII texts every offset up to the end is a boundary. -/
theorem isBoundary_eq (offset : Nat) : a.isBoundary offset = b.isBoundary offset := by
  rw [isBoundary_of_ascii twins.ascii.1, isBoundary_of_ascii twins.ascii.2, twins.size]

/-- Spans are made from the boundaries of a range. -/
theorem rangeSpan_eq (start finish : Nat) :
    a.rangeSpan start finish = b.rangeSpan start finish := by
  rw [rangeSpan, rangeSpan, twins.size, twins.isBoundary_eq, twins.isBoundary_eq]

/-- Bytes that the texts agree on, one by one. -/
theorem extract_eq {start finish : Nat}
    (h : ∀ offset, start ≤ offset → offset < finish → a.Alike b offset) :
    a.bytes.extract start finish = b.bytes.extract start finish := by
  have hsize : a.bytes.size = b.bytes.size := twins.size
  apply Array.ext_getElem?
  intro i
  rw [Array.getElem?_extract, Array.getElem?_extract, hsize]
  split
  · exact h (start + i) (by omega) (by omega)
  · rfl

/-- A slice of text is what its bytes say. -/
theorem slice_eq {start finish : Nat}
    (h : ∀ offset, start ≤ offset → offset < finish → a.Alike b offset) :
    a.slice start finish = b.slice start finish := by
  rw [slice, slice, twins.size, twins.isBoundary_eq, twins.isBoundary_eq, twins.extract_eq h]

/-- A string is compared with the content byte by byte, and it is no comment. -/
theorem isQuoted_eq {content : List UInt8} {trivia : Trivia} (hmem : trivia ∈ a.trivia) :
    a.isQuoted content trivia = b.isQuoted content trivia := by
  rw [isQuoted, isQuoted]
  cases hkind : trivia.kind with
  | comment => rfl
  | literal =>
    rw [twins.extract_eq fun offset hstart hfinish =>
      twins.alike (a.inComment_of_literal hmem hkind hstart hfinish)]

/-- Strings are looked for among the same literals. -/
theorem findString_eq (content : String) (start finish : Nat) :
    a.findString content start finish = b.findString content start finish := by
  have hquoted : ∀ trivia ∈ a.trivia,
      (start ≤ trivia.start && trivia.start < finish && a.isQuoted (pattern content) trivia) =
        (start ≤ trivia.start && trivia.start < finish && b.isQuoted (pattern content) trivia) := by
    intro trivia hmem
    rw [twins.isQuoted_eq hmem]
  rw [findString, findString, ← twins.trivia, ← Array.find?_toList, ← Array.find?_toList]
  refine congrArg _ (List.find?_congr fun trivia hmem => ?_)
  exact hquoted trivia (Array.mem_toList_iff.1 hmem)

theorem locateString_eq (context content : String) (start finish : Nat) :
    a.locateString context content start finish = b.locateString context content start finish := by
  rw [locateString, locateString, twins.findString_eq, twins.missing_eq]

/-! ### Semicolons -/

/-- The next significant byte is the same in both texts, and is no part of a comment. -/
theorem nextSignificant_eq (offset : Nat) :
    a.nextSignificant offset = b.nextSignificant offset ∧
      ∀ next, a.nextSignificant offset = some next → a.inComment next = false := by
  -- each step goes on behind the offset
  induction hleft : a.size - offset using Nat.strong_induction_on generalizing offset with
  | h left ih =>
    subst hleft
    by_cases hsize : a.size ≤ offset
    · rw [nextSignificant_of_size_le hsize, nextSignificant_of_size_le (twins.size ▸ hsize)]
      exact ⟨rfl, fun _ hnone => by cases hnone⟩
    cases hcomment : a.inComment offset with
    | true =>
      obtain ⟨trivia, haround, hkind⟩ := Option.any_eq_true _ _ |>.1 hcomment
      have hfinish := lt_finish_of_triviaAt haround
      rw [nextSignificant_of_comment twins.skips.1 haround (eq_of_beq hkind),
        nextSignificant_of_comment twins.skips.2 (twins.triviaAt_eq offset ▸ haround)
          (eq_of_beq hkind)]
      exact ih _ (by omega) _ rfl
    | false =>
      obtain ⟨byte, hbyte⟩ : ∃ byte, a.byteAt offset = some byte :=
        ⟨_, Array.getElem?_eq_getElem (Nat.not_le.1 hsize)⟩
      have hbyte' : b.byteAt offset = some byte := (twins.alike hcomment).symm.trans hbyte
      rw [nextSignificant_of_code hbyte fun _ => hcomment,
        nextSignificant_of_code hbyte' fun _ => by rwa [← twins.inComment_eq]]
      split
      · exact ih _ (by omega) _ rfl
      · refine ⟨rfl, fun next hnext => ?_⟩
        cases hnext
        exact hcomment

/-- A semicolon ends a statement in the one text just if it does in the other, provided that they
agree on the last byte of the statement. -/
theorem endsWithSemicolon_eq {finish : Nat} (h : ∀ last, finish = last + 1 → a.Alike b last) :
    a.endsWithSemicolon finish = b.endsWithSemicolon finish := by
  have hnext : (a.nextSignificant finish).bind a.byteAt =
      (b.nextSignificant finish).bind b.byteAt := by
    obtain ⟨hsame, hcode⟩ := twins.nextSignificant_eq finish
    rw [← hsame]
    cases hnext : a.nextSignificant finish with
    | none => rfl
    | some next => exact twins.alike (hcode next hnext)
  rw [endsWithSemicolon, endsWithSemicolon, hnext]
  cases finish with
  | zero => rfl
  | succ last => rw [Nat.add_sub_cancel, show a.byteAt last = _ from h last rfl]

end Twins

end Source

end Concretion
