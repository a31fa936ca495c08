import Concretion.Text.Blank
import Concretion.Text.Source
import Mathlib.Data.List.Infix

/-!
# The bytes of characters

A text is a list of characters, but it is scanned and searched byte by byte. A character of ASCII is
a single byte, its own code; all bytes of any other character lie beyond ASCII, and its first byte
continues no character. So a byte of ASCII stands only where its character does, and a text is never
cut in two inside of a character that way.

- `Text.bytesOf`: the bytes of a list of characters.
- `Text.isAscii`: the characters that are a single byte.
- `Text.isWordChar`: the characters of words, which have the same bytes as words.
-/

namespace Concretion

namespace Text

/-- The UTF-8 bytes of characters. -/
def bytesOf (chars : List Char) : List UInt8 := chars.flatMap String.utf8EncodeChar

/-- The characters that are a single byte. -/
def isAscii (c : Char) : Bool := c.toNat < 0x80

/-- The characters of words: letters and digits, `_` and `$`, and all characters beyond ASCII. -/
def isWordChar (c : Char) : Bool := c.isAlphanum || c == '_' || c == '$' || !isAscii c

@[simp] theorem bytesOf_nil : bytesOf [] = [] := rfl

theorem bytesOf_cons (c : Char) (rest : List Char) :
    bytesOf (c :: rest) = String.utf8EncodeChar c ++ bytesOf rest := rfl

theorem bytesOf_append (a b : List Char) : bytesOf (a ++ b) = bytesOf a ++ bytesOf b :=
  List.flatMap_append

theorem length_bytesOf (chars : List Char) : (bytesOf chars).length = width chars := by
  induction chars with
  | nil => rfl
  | cons c rest ih =>
    rw [bytesOf_cons, List.length_append, ih, String.length_utf8EncodeChar]
    rfl

/-! ## Texts -/

theorem encoded_ofList (chars : List Char) :
    (encoded (String.ofList chars)).toList = bytesOf chars := by
  have hbytes : (String.ofList chars).toUTF8 = (bytesOf chars).toByteArray := by
    rw [String.toUTF8_eq_toByteArray, String.toByteArray_ofList]
    rfl
  rw [encoded, hbytes, List.data_toByteArray]

theorem size_encoded (chars : List Char) : (encoded (String.ofList chars)).size = width chars := by
  rw [← Array.length_toList, encoded_ofList, length_bytesOf]

theorem pattern_eq (text : String) : pattern text = bytesOf text.toList := by
  have hencoded := encoded_ofList text.toList
  rw [String.ofList_toList] at hencoded
  exact hencoded

theorem utf8ByteSize_eq (text : String) : text.utf8ByteSize = width text.toList := by
  rw [← length_bytesOf, ← pattern_eq]
  rfl

/-- The bytes of characters are read as these characters. -/
theorem fromUTF8_bytesOf (chars : List Char) :
    String.fromUTF8? ⟨(bytesOf chars).toArray⟩ = some (String.ofList chars) := by
  have hbytes : (⟨(bytesOf chars).toArray⟩ : ByteArray) = (String.ofList chars).toByteArray := by
    rw [String.toByteArray_ofList]
    exact ByteArray.ext (List.data_toByteArray).symm
  rw [hbytes, String.fromUTF8?, dif_pos (String.isValidUTF8 _)]
  rfl

/-! ## Single characters -/

/-- A character of ASCII is a single byte, its code. -/
theorem bytes_of_isAscii {c : Char} (h : isAscii c) :
    String.utf8EncodeChar c = [UInt8.ofNat c.toNat] := by
  have hle : c.val.toNat ≤ 0x7F := Nat.le_of_lt_succ (of_decide_eq_true h)
  simp only [String.utf8EncodeChar, if_pos hle]
  rfl

theorem le_ofNat {n : Nat} (low : Nat) (hlow : low ≤ n) (hn : n < 256) :
    UInt8.ofNat low ≤ UInt8.ofNat n := by
  rw [UInt8.le_iff_toNat_le, UInt8.toNat_ofNat', UInt8.toNat_ofNat']
  omega

/-- The bytes of a character beyond ASCII lie beyond ASCII, too, and the first one starts a
character. -/
theorem bytes_of_not_isAscii {c : Char} (h : isAscii c = false) :
    ∃ first rest, String.utf8EncodeChar c = first :: rest ∧ 0xC0 ≤ first ∧
      ∀ b ∈ rest, 0x80 ≤ b := by
  have hgt : ¬ c.val.toNat ≤ 0x7F :=
    fun hle => absurd (Nat.lt_succ_of_le hle) (of_decide_eq_false h)
  have hfirst : ∀ n k, 0xC0 ≤ k → k + n < 256 → (0xC0 : UInt8) ≤ UInt8.ofNat (n + k) :=
    fun n k _ _ => le_ofNat 0xC0 (by omega) (by omega)
  have hrest : ∀ n : Nat, (0x80 : UInt8) ≤ UInt8.ofNat (n % 0x40 + 0x80) :=
    fun n => le_ofNat 0x80 (by omega) (by omega)
  simp only [String.utf8EncodeChar, if_neg hgt]
  split
  · refine ⟨_, _, rfl, hfirst _ _ (by omega) (by omega), ?_⟩
    simp only [List.forall_mem_cons, hrest, true_and, List.not_mem_nil, false_imp_iff, implies_true]
  · split
    all_goals
      refine ⟨_, _, rfl, hfirst _ _ (by omega) (by omega), ?_⟩
      simp only [List.forall_mem_cons, hrest, true_and, List.not_mem_nil, false_imp_iff,
        implies_true]

/-- Behind its first byte, a character has only bytes beyond ASCII. -/
theorem exists_head_byte (c : Char) :
    ∃ first rest, String.utf8EncodeChar c = first :: rest ∧ ∀ b ∈ rest, 0x80 ≤ b := by
  cases h : isAscii c with
  | true =>
    refine ⟨UInt8.ofNat c.toNat, [], bytes_of_isAscii h, ?_⟩
    rintro b ⟨⟩
  | false =>
    obtain ⟨first, rest, hbytes, -, hrest⟩ := bytes_of_not_isAscii h
    exact ⟨first, rest, hbytes, hrest⟩

theorem le_of_not_isAscii {c : Char} (h : isAscii c = false) {b : UInt8}
    (hb : b ∈ String.utf8EncodeChar c) : 0x80 ≤ b := by
  obtain ⟨first, rest, hbytes, hfirst, hrest⟩ := bytes_of_not_isAscii h
  rw [hbytes] at hb
  rcases List.mem_cons.1 hb with rfl | hb
  · exact UInt8.le_trans (by decide) hfirst
  · exact hrest b hb

/-- A byte of ASCII that stands among the bytes of a character is that character. -/
theorem eq_of_mem_utf8EncodeChar {c d : Char} (hd : isAscii d)
    (hmem : UInt8.ofNat d.toNat ∈ String.utf8EncodeChar c) : c = d := by
  have hlt : d.toNat < 0x80 := of_decide_eq_true hd
  cases hc : isAscii c with
  | true =>
    have hlt' : c.toNat < 0x80 := of_decide_eq_true hc
    rw [bytes_of_isAscii hc, List.mem_singleton, ← UInt8.toNat_inj, UInt8.toNat_ofNat',
      UInt8.toNat_ofNat'] at hmem
    exact Char.toNat_inj.1 (by omega)
  | false =>
    have hle := le_of_not_isAscii hc hmem
    rw [UInt8.le_iff_toNat_le, UInt8.toNat_ofNat'] at hle
    change 0x80 ≤ d.toNat % 256 at hle
    omega

/-- Bytes of ASCII are not among the bytes of a character that is none of theirs. -/
theorem notMem_of_mem_utf8EncodeChar {c : Char} {codes : List UInt8} {chars : List Char}
    (hcodes : ∀ code ∈ codes, ∃ d ∈ chars, isAscii d ∧ UInt8.ofNat d.toNat = code)
    (h : c ∉ chars) {b : UInt8} (hb : b ∈ String.utf8EncodeChar c) : b ∉ codes := by
  intro hcode
  obtain ⟨d, hd, hascii, rfl⟩ := hcodes b hcode
  exact h (eq_of_mem_utf8EncodeChar hascii hb ▸ hd)

/-- What is no part of a word is a single byte, and that byte is no part of a word. -/
theorem isWordByte_of_isWordChar {c : Char} (h : isWordChar c = false) :
    isAscii c ∧ isWordByte (UInt8.ofNat c.toNat) = false := by
  have hascii : isAscii c := by
    rw [isWordChar, Bool.or_eq_false_iff, Bool.not_eq_false'] at h
    exact h.2
  have hbelow : ∀ n < 0x80, isWordChar (Char.ofNat n) = false →
      isWordByte (UInt8.ofNat n) = false := by decide
  have hlt : c.toNat < 0x80 := of_decide_eq_true hascii
  refine ⟨hascii, hbelow c.toNat hlt ?_⟩
  rw [Char.ofNat_toNat]
  exact h

/-- No character starts with a byte that continues one. -/
theorem isContinuation_of_head {c : Char} {b : UInt8}
    (h : (String.utf8EncodeChar c).head? = some b) : isContinuation b = false := by
  cases hc : isAscii c with
  | true =>
    have hlt : c.toNat < 0x80 := of_decide_eq_true hc
    rw [bytes_of_isAscii hc] at h
    cases h
    have hbelow : ¬ (0x80 : UInt8) ≤ UInt8.ofNat c.toNat := by
      rw [UInt8.le_iff_toNat_le, UInt8.toNat_ofNat']
      show ¬ 0x80 ≤ c.toNat % 256
      omega
    simp [isContinuation, hbelow]
  | false =>
    obtain ⟨first, rest, hbytes, hfirst, -⟩ := bytes_of_not_isAscii hc
    rw [hbytes] at h
    cases h
    simp [isContinuation, UInt8.not_lt.2 hfirst]

/-- A text can be cut in two behind any of its characters. -/
theorem isBoundary_width (a b : List Char) :
    isBoundary (encoded (String.ofList (a ++ b))) (width a) = true := by
  have hbyte : (encoded (String.ofList (a ++ b)))[width a]? = (bytesOf b).head? := by
    rw [← Array.getElem?_toList, encoded_ofList, bytesOf_append, ← length_bytesOf,
      List.getElem?_append_right (Nat.le_refl _), Nat.sub_self, List.head?_eq_getElem?]
  rw [isBoundary, hbyte]
  cases b with
  | nil =>
    rw [List.append_nil, size_encoded]
    exact beq_self_eq_true _
  | cons c rest =>
    rw [bytesOf_cons, List.head?_append_of_ne_nil _ String.utf8EncodeChar_ne_nil]
    cases hhead : (String.utf8EncodeChar c).head? with
    | none => exact absurd (List.head?_eq_none_iff.1 hhead) String.utf8EncodeChar_ne_nil
    | some first => simp only [isContinuation_of_head hhead, Bool.not_false, Bool.or_true]

end Text

end Concretion
