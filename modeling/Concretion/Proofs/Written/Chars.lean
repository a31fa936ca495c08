import Concretion.Proofs.Checked
import Concretion.Proofs.Written.Bytes

/-!
# Words among characters

Searches go by bytes, but a word that they find is a word among the characters of the text: a text
is never found to begin inside of a character of another one. What is beside a word can be told from
the characters next to it as well.

- `Text.isPrefix_of_bytesOf`: no text is the beginning of another one by its bytes only.
- `Source.Has`: the characters that stand at an offset of a text.
- `Source.startsAt_iff_has`: the bytes of characters stand where the characters do.
- `Source.wordMatchesAt_iff`: a whole word, by the characters beside it.
-/

namespace Concretion

namespace Text

/-- A character is determined by the bytes that a text starts with. -/
theorem char_eq_of_append {c d : Char} {a b : List UInt8}
    (h : String.utf8EncodeChar c ++ a = String.utf8EncodeChar d ++ b) : c = d := by
  have hdecode : ∀ (c : Char) (a : List UInt8),
      (String.utf8EncodeChar c ++ a).toByteArray.utf8DecodeChar? 0 = some c := by
    intro c a
    rw [List.toByteArray_append]
    exact ByteArray.utf8DecodeChar?_utf8EncodeChar_append
  have hc := hdecode c a
  rw [h, hdecode d b] at hc
  exact (Option.some.inj hc).symm

theorem isPrefix_of_bytesOf {a b : List Char} (h : bytesOf a <+: bytesOf b) : a <+: b := by
  induction a generalizing b with
  | nil => exact List.nil_prefix
  | cons c more ih =>
    obtain ⟨rest, hrest⟩ := h
    cases b with
    | nil =>
      rw [bytesOf_cons, bytesOf_nil, List.append_assoc, List.append_eq_nil_iff] at hrest
      exact absurd hrest.1 String.utf8EncodeChar_ne_nil
    | cons d others =>
      rw [bytesOf_cons, bytesOf_cons, List.append_assoc] at hrest
      obtain rfl := char_eq_of_append hrest
      obtain ⟨behind, rfl⟩ := ih ⟨rest, List.append_cancel_left hrest⟩
      exact ⟨behind, rfl⟩

theorem bytesOf_inj {a b : List Char} : bytesOf a = bytesOf b ↔ a = b := by
  constructor
  · intro h
    have hab := isPrefix_of_bytesOf (a := a) (b := b) (h ▸ List.prefix_rfl)
    have hba := isPrefix_of_bytesOf (a := b) (b := a) (h ▸ List.prefix_rfl)
    exact hab.eq_of_length_le hba.length_le
  · rintro rfl
    rfl

/-- All bytes of a character are bytes of words if the character belongs to words, and none of them
is if it does not. -/
theorem isWordByte_eq {c : Char} {b : UInt8} (h : b ∈ String.utf8EncodeChar c) :
    isWordByte b = isWordChar c := by
  cases hc : isAscii c with
  | true =>
    have hbelow : ∀ n < 0x80, isWordByte (UInt8.ofNat n) = isWordChar (Char.ofNat n) := by decide
    have hlt : c.toNat < 0x80 := of_decide_eq_true hc
    rw [bytes_of_isAscii hc, List.mem_singleton] at h
    rw [h, hbelow c.toNat hlt, Char.ofNat_toNat]
  | false =>
    have hle := le_of_not_isAscii hc h
    simp [isWordByte, isWordChar, hle, hc]

/-- Behind the first byte of a character come bytes that continue it. -/
theorem isContinuation_of_tail (c : Char) :
    ∀ b ∈ (String.utf8EncodeChar c).tail, isContinuation b = true := by
  have hrest : ∀ n : Nat, isContinuation (UInt8.ofNat (n % 0x40 + 0x80)) = true := by
    intro n
    have hlow := le_ofNat 0x80 (n := n % 0x40 + 0x80) (by omega) (by omega)
    have hhigh : UInt8.ofNat (n % 0x40 + 0x80) < 0xC0 := by
      rw [UInt8.lt_iff_toNat_lt, UInt8.toNat_ofNat']
      show (n % 0x40 + 0x80) % 256 < 0xC0
      omega
    rw [isContinuation, Bool.and_eq_true, decide_eq_true_eq, decide_eq_true_eq]
    exact ⟨hlow, hhigh⟩
  simp only [String.utf8EncodeChar]
  split
  · exact List.forall_mem_nil _
  · split
    · exact List.forall_mem_singleton.2 (hrest _)
    · split
      all_goals
        simp only [List.tail_cons, List.forall_mem_cons, hrest, true_and, List.not_mem_nil,
          false_imp_iff, implies_true]

/-- A byte that continues no character is the first one of a character. -/
theorem exists_split {chars : List Char} {offset : Nat} {b : UInt8}
    (hbyte : (bytesOf chars)[offset]? = some b) (hfirst : isContinuation b = false) :
    ∃ before behind, chars = before ++ behind ∧ width before = offset := by
  induction chars generalizing offset with
  | nil => cases hbyte
  | cons c rest ih =>
    rw [bytesOf_cons] at hbyte
    by_cases hinside : offset < c.utf8Size
    · rw [List.getElem?_append_left (by rwa [String.length_utf8EncodeChar])] at hbyte
      cases offset with
      | zero => exact ⟨[], c :: rest, rfl, rfl⟩
      | succ offset =>
        rw [← List.getElem?_tail] at hbyte
        rw [isContinuation_of_tail c b (List.mem_of_getElem? hbyte)] at hfirst
        cases hfirst
    · have hle := Nat.not_lt.1 hinside
      rw [List.getElem?_append_right (by rwa [String.length_utf8EncodeChar]),
        String.length_utf8EncodeChar] at hbyte
      obtain ⟨before, behind, rfl, hwidth⟩ := ih hbyte
      refine ⟨c :: before, behind, rfl, ?_⟩
      rw [width_cons, hwidth]
      omega

end Text

open Text

namespace Source

variable (source : Source) {offset : Nat} {chars : List Char}

/-- The characters stand at the offset. -/
def Has (offset : Nat) (chars : List Char) : Prop :=
  ∃ before behind, source.text.toList = before ++ (chars ++ behind) ∧ width before = offset

theorem bytes_toList : source.bytes.toList = bytesOf source.text.toList := by
  rw [source.bytes_eq]
  exact pattern_eq source.text

variable {source}

/-- The bytes from an offset on are those of the characters from there on. -/
theorem drop_bytes {before behind : List Char} (h : source.text.toList = before ++ behind) :
    source.bytes.toList.drop (width before) = bytesOf behind := by
  rw [bytes_toList, h, bytesOf_append, ← length_bytesOf, List.drop_left]

/-- The bytes of characters stand where the characters do. -/
theorem startsAt_iff_has (hne : chars ≠ []) :
    startsAt source.bytes (bytesOf chars) offset = true ↔ source.Has offset chars := by
  rw [startsAt_eq, List.isPrefixOf_iff_prefix]
  constructor
  · intro h
    obtain ⟨c, more, rfl⟩ := List.exists_cons_of_ne_nil hne
    obtain ⟨b, tail, hbytes⟩ := List.exists_cons_of_ne_nil (String.utf8EncodeChar_ne_nil (c := c))
    have hfirst : isContinuation b = false := by
      refine isContinuation_of_head (c := c) ?_
      rw [hbytes]
      rfl
    have hbyte : (bytesOf source.text.toList)[offset]? = some b := by
      obtain ⟨rest, hrest⟩ := h
      rw [← bytes_toList, ← List.head?_drop, ← hrest, bytesOf_cons, hbytes]
      rfl
    obtain ⟨before, behind, htext, rfl⟩ := exists_split hbyte hfirst
    rw [drop_bytes htext] at h
    obtain ⟨rest, rfl⟩ := isPrefix_of_bytesOf h
    exact ⟨before, rest, htext, rfl⟩
  · rintro ⟨before, behind, htext, rfl⟩
    rw [drop_bytes htext, bytesOf_append]
    exact List.prefix_append _ _

/-! ## What is beside a word -/

theorem any_byteAt {before behind : List Char} (h : source.text.toList = before ++ behind) :
    (source.byteAt (width before)).any isWordByte = behind.head?.any isWordChar := by
  have hbyte : source.byteAt (width before) = (bytesOf behind).head? := by
    rw [byteAt, ← Array.getElem?_toList, ← List.head?_drop, drop_bytes h]
  rw [hbyte]
  cases behind with
  | nil => rfl
  | cons c rest =>
    rw [bytesOf_cons, List.head?_append_of_ne_nil _ String.utf8EncodeChar_ne_nil]
    cases hhead : (String.utf8EncodeChar c).head? with
    | none => exact absurd (List.head?_eq_none_iff.1 hhead) String.utf8EncodeChar_ne_nil
    | some b => exact isWordByte_eq (List.mem_of_mem_head? hhead)

theorem any_byteBefore {before behind : List Char} (h : source.text.toList = before ++ behind) :
    (width before != 0 && (source.byteAt (width before - 1)).any isWordByte) =
      before.getLast?.any isWordChar := by
  rcases List.eq_nil_or_concat before with rfl | ⟨init, c, rfl⟩
  · rfl
  · rw [List.concat_eq_append] at h ⊢
    have hwidth : width (init ++ [c]) = width init + c.utf8Size := by
      rw [width_append]
      rfl
    have hpos := c.utf8Size_pos
    have hne : (width (init ++ [c]) != 0) = true := bne_iff_ne.2 (by omega)
    have hbyte : source.byteAt (width (init ++ [c]) - 1) = (String.utf8EncodeChar c).getLast? := by
      rw [byteAt, ← Array.getElem?_toList, bytes_toList, h, List.append_assoc, bytesOf_append,
        List.getElem?_append_right (by rw [length_bytesOf]; omega), length_bytesOf,
        List.singleton_append, bytesOf_cons,
        List.getElem?_append_left (by rw [String.length_utf8EncodeChar]; omega),
        List.getLast?_eq_getElem?, String.length_utf8EncodeChar]
      congr 1
      omega
    rw [hne, hbyte, List.getLast?_concat, Bool.true_and]
    cases hlast : (String.utf8EncodeChar c).getLast? with
    | none => exact absurd (List.getLast?_eq_none_iff.1 hlast) String.utf8EncodeChar_ne_nil
    | some b => exact isWordByte_eq (List.mem_of_getLast? hlast)

/-- A whole word is a word that has no characters of words beside it. That is asked of words of
ASCII letters only. -/
theorem wordMatchesAt_iff {word : String} (hne : word.toList ≠ []) :
    source.wordMatchesAt (isAlphabetic word) (pattern word) offset = true ↔
      source.inTrivia offset = false ∧ ∃ before behind,
        source.text.toList = before ++ (word.toList ++ behind) ∧ width before = offset ∧
          (isAlphabetic word = true →
            before.getLast?.any isWordChar = false ∧ behind.head?.any isWordChar = false) := by
  -- The search looks at the bytes beside a match. They are those of the characters beside it.
  have hbeside : ∀ before behind, source.text.toList = before ++ (word.toList ++ behind) →
      ((!(width before != 0 && (source.byteAt (width before - 1)).any isWordByte) &&
          !(source.byteAt (width before + (pattern word).length)).any isWordByte) = true ↔
        before.getLast?.any isWordChar = false ∧ behind.head?.any isWordChar = false) := by
    intro before behind htext
    have hbehind : source.text.toList = (before ++ word.toList) ++ behind := by
      rw [htext, List.append_assoc]
    rw [any_byteBefore htext, pattern_eq, length_bytesOf, ← width_append, any_byteAt hbehind,
      Bool.and_eq_true, Bool.not_eq_true', Bool.not_eq_true']
  have hspells : startsAt source.bytes (pattern word) offset = true ↔
      source.Has offset word.toList := by
    rw [pattern_eq, startsAt_iff_has hne]
  rw [wordMatchesAt, matchesAt, Bool.and_eq_true, Bool.and_eq_true, Bool.not_eq_true', hspells]
  constructor
  · rintro ⟨⟨⟨before, behind, htext, rfl⟩, htrivia⟩, hapart⟩
    refine ⟨htrivia, before, behind, htext, rfl, fun halphabetic => ?_⟩
    rw [halphabetic, Bool.not_true, Bool.false_or] at hapart
    exact (hbeside before behind htext).1 hapart
  · rintro ⟨htrivia, before, behind, htext, rfl, hapart⟩
    refine ⟨⟨⟨before, behind, htext, rfl⟩, htrivia⟩, ?_⟩
    cases halphabetic : isAlphabetic word with
    | false => rfl
    | true => exact (hbeside before behind htext).2 (hapart halphabetic)

/-! ## Cutting characters out -/

namespace Has

theorem le_size (h : source.Has offset chars) : offset + width chars ≤ source.size := by
  obtain ⟨before, behind, htext, rfl⟩ := h
  have hsize : source.size = width source.text.toList := by
    rw [← length_bytesOf, ← bytes_toList, Array.length_toList, size]
  rw [hsize, htext, width_append, width_append]
  omega

theorem isBoundary (h : source.Has offset chars) :
    source.isBoundary offset = true ∧ source.isBoundary (offset + width chars) = true := by
  obtain ⟨before, behind, htext, rfl⟩ := h
  have hcut : ∀ front back, source.text.toList = front ++ back →
      source.isBoundary (width front) = true := by
    intro front back hchars
    have hboundary := isBoundary_width front back
    rw [← hchars, String.ofList_toList, ← source.bytes_eq] at hboundary
    exact hboundary
  refine ⟨hcut before _ htext, ?_⟩
  rw [← width_append]
  exact hcut (before ++ chars) behind (by rw [htext, List.append_assoc])

/-- No character is cut in two at either end of characters. -/
theorem inside (h : source.Has offset chars) :
    (offset ≤ offset + width chars && offset + width chars ≤ source.size &&
      source.isBoundary offset && source.isBoundary (offset + width chars)) = true := by
  simp only [h.isBoundary, Bool.and_true, Bool.and_eq_true, decide_eq_true_eq]
  exact ⟨Nat.le_add_right _ _, h.le_size⟩

theorem extract (h : source.Has offset chars) :
    (source.bytes.extract offset (offset + width chars)).toList = bytesOf chars := by
  obtain ⟨before, behind, htext, rfl⟩ := h
  rw [Array.toList_extract, List.extract_eq_take_drop, drop_bytes htext, Nat.add_sub_cancel_left,
    bytesOf_append, ← length_bytesOf, List.take_left]

theorem slice (h : source.Has offset chars) :
    source.slice offset (offset + width chars) = some (String.ofList chars) := by
  have hextract : source.bytes.extract offset (offset + width chars) = (bytesOf chars).toArray :=
    Array.toList_inj.1 h.extract
  rw [Source.slice, if_pos h.inside, hextract, fromUTF8_bytesOf]

theorem rangeSpan (h : source.Has offset chars) :
    source.rangeSpan offset (offset + width chars) =
      .ok (Range.span ⟨offset, offset + width chars⟩) := by
  rw [Source.rangeSpan, if_pos h.inside]
  rfl

end Has

end Source

end Concretion
