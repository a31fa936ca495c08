import Concretion.Proofs.Checked
import Concretion.Recovery.Session

/-!
# Symbols that spell the text

A symbol claims a text and a place. Whatever a search finds stands in the source text, so the symbol
of a token that was found has the text of its place as its value. A symbol at a fallback position
has it by chance at best.

- `Source.spells`: the text of a symbol stands at its place.
- `Source.codeAt`: a byte outside of comments and literals.
- `Token.at`: the symbol of a token at an offset.
- `Source.Locates`: what a search finds stands in the source text.
- `Source.spells_of_locates`: the symbol of a token that was found.
-/

namespace Concretion

/-- Does the text of the symbol stand at its place? -/
def Source.spells (source : Source) (symbol : Symbol) : Bool :=
  decide (symbol.span.last < source.size) &&
    (source.bytes.extract symbol.span.start (symbol.span.last + 1)).toList ==
      Text.pattern symbol.value

/-- Does the byte stand at the offset, outside of comments and literals? -/
def Source.codeAt (source : Source) (b : UInt8) (offset : Nat) : Bool :=
  source.byteAt offset == some b && (source.triviaAt offset).isNone

/-- The symbol of a token that starts at an offset. It covers at least one offset. -/
def Token.at (token : Token) (start : Nat) : Symbol :=
  ⟨token.kind, ⟨start, start + max token.length 1 - 1⟩, token.text⟩

namespace Source

variable {source : Source} {token : Token} {offset : Nat}

/-! ## Bytes of the code -/

theorem byteAt_of_codeAt {b : UInt8} (h : source.codeAt b offset = true) :
    source.byteAt offset = some b := beq_iff_eq.1 (Bool.and_eq_true_iff.1 h).1

theorem lt_size_of_codeAt {b : UInt8} (h : source.codeAt b offset = true) : offset < source.size :=
  (Array.getElem?_eq_some_iff.1 (byteAt_of_codeAt h)).1

/-- Where comments are skipped, a search for a single byte looks at the code alone. -/
theorem matchesAt_byte (hmode : source.mode = .skipTrivia) (b : UInt8) (offset : Nat) :
    source.matchesAt [b] offset = source.codeAt b offset := by
  have hskips : source.inTrivia offset = (source.triviaAt offset).isSome := by
    rw [inTrivia, hmode]
    rfl
  rw [matchesAt, hskips, Option.not_isSome]
  simp only [Text.startsAt, Bool.and_true, codeAt, byteAt]

/-! ## Tokens in the text -/

theorem length_pos (ht : token.text ≠ "") : 0 < token.length :=
  Nat.pos_of_ne_zero fun hzero => ht (String.utf8ByteSize_eq_zero_iff.1 hzero)

/-- The bytes of a token that is not empty, at an offset, are spelled by its symbol there. -/
theorem spells_at (ht : token.text ≠ "") (hsize : offset + token.length ≤ source.size)
    (hbytes : (source.bytes.extract offset (offset + token.length)).toList =
      Text.pattern token.text) : source.spells (token.at offset) = true := by
  have hpos := length_pos ht
  have hlast : offset + max token.length 1 - 1 + 1 = offset + token.length := by omega
  simp only [spells, Token.at, hlast, hbytes, beq_self_eq_true, Bool.and_true]
  exact decide_eq_true (by omega)

theorem spells_of_matchesAt (ht : token.text ≠ "")
    (h : source.matchesAt (Text.pattern token.text) offset = true) :
    source.spells (token.at offset) = true := by
  have hprefix : Text.pattern token.text <+: source.bytes.toList.drop offset := by
    rw [matchesAt, Bool.and_eq_true, Text.startsAt_eq] at h
    exact List.isPrefixOf_iff_prefix.1 h.1
  have hlength : (Text.pattern token.text).length = token.length := rfl
  have hfits : token.length ≤ source.size - offset := by
    rw [← hlength, size, ← Array.length_toList, ← List.length_drop]
    exact hprefix.length_le
  have hpos := length_pos ht
  refine spells_at ht (by omega) ?_
  rw [Array.toList_extract, List.extract_eq_take_drop, Nat.add_sub_cancel_left, ← hlength]
  exact (List.prefix_iff_eq_take.1 hprefix).symm

theorem spells_of_wordMatchesAt (ht : token.text ≠ "") {alphabetic : Bool}
    (h : source.wordMatchesAt alphabetic (Text.pattern token.text) offset = true) :
    source.spells (token.at offset) = true := by
  rw [wordMatchesAt, Bool.and_eq_true] at h
  exact spells_of_matchesAt ht h.1

theorem spells_of_hasWordAt (ht : token.text ≠ "") (h : source.hasWordAt token.text offset = true) :
    source.spells (token.at offset) = true := by
  rw [hasWordAt, Bool.and_eq_true] at h
  exact spells_of_wordMatchesAt ht h.2

/-- What is read at an offset is spelled there. -/
theorem spells_of_slice (ht : token.text ≠ "")
    (h : source.slice offset (offset + token.length) = some token.text) :
    source.spells (token.at offset) = true := by
  rw [slice] at h
  split at h
  · next hinside =>
    simp only [Bool.and_eq_true, decide_eq_true_eq] at hinside
    refine spells_at ht hinside.1.1.2 ?_
    rw [String.fromUTF8?] at h
    split at h
    · rw [← Option.some.inj h]
      rfl
    · cases h
  · cases h

/-- An opening parenthesis is a single byte. -/
theorem spells_leftParen (h : source.byteAt offset = some 0x28) :
    source.spells (Token.leftParen.at offset) = true := by
  obtain ⟨hlt, hbyte⟩ := Array.getElem?_eq_some_iff.1 h
  refine spells_at (by decide) hlt ?_
  rw [Array.toList_extract, List.extract_eq_take_drop, List.drop_eq_getElem_cons hlt,
    Array.getElem_toList, hbyte, Nat.add_sub_cancel_left]
  rfl

/-! ## Searches -/

variable {start finish : Nat}

theorem spells_of_find (ht : token.text ≠ "")
    (h : source.find token.text start finish = some offset) :
    source.spells (token.at offset) = true :=
  spells_of_matchesAt ht (Search.firstFrom_eq_some_iff.1 h).passes

theorem spells_of_findLast (ht : token.text ≠ "")
    (h : source.findLast token.text start finish = some offset) :
    source.spells (token.at offset) = true :=
  spells_of_matchesAt ht (Search.lastFrom_eq_some_iff.1 h).passes

theorem spells_of_findWord (ht : token.text ≠ "")
    (h : source.findWord token.text start finish = some offset) :
    source.spells (token.at offset) = true :=
  spells_of_wordMatchesAt ht (Search.firstFrom_eq_some_iff.1 h).passes

theorem spells_of_findLastWord (ht : token.text ≠ "")
    (h : source.findLastWord token.text start finish = some offset) :
    source.spells (token.at offset) = true :=
  spells_of_wordMatchesAt ht (Search.lastFrom_eq_some_iff.1 h).passes

/-- What has been located of the token, if anything, stands in the text. -/
def Locates (source : Source) (token : Token) (found : Except Missing Nat) : Prop :=
  ∀ offset, found = .ok offset → source.spells (token.at offset) = true

variable {context : String}

theorem locates_locate (ht : token.text ≠ "") :
    source.Locates token (source.locate context token.text start finish) := by
  intro offset h
  simp only [locate] at h
  split at h
  · next hfound =>
    cases h
    exact spells_of_find ht hfound
  · cases h

theorem locates_locateLast (ht : token.text ≠ "") :
    source.Locates token (source.locateLast context token.text start finish) := by
  intro offset h
  simp only [locateLast] at h
  split at h
  · next hfound =>
    cases h
    exact spells_of_findLast ht hfound
  · cases h

theorem locates_locateWord (ht : token.text ≠ "") :
    source.Locates token (source.locateWord context token.text start finish) := by
  intro offset h
  simp only [locateWord] at h
  split at h
  · next hfound =>
    cases h
    exact spells_of_findWord ht hfound
  · cases h

theorem locates_locateLastWord (ht : token.text ≠ "") :
    source.Locates token (source.locateLastWord context token.text start finish) := by
  intro offset h
  simp only [locateLastWord] at h
  split at h
  · next hfound =>
    cases h
    exact spells_of_findLastWord ht hfound
  · cases h

/-- The expected offset counts only if the word stands there. -/
theorem locates_locateWordAtOrBefore (ht : token.text ≠ "") {expected : Option Nat} :
    source.Locates token
      (source.locateWordAtOrBefore context token.text expected start finish) := by
  intro offset h
  simp only [locateWordAtOrBefore] at h
  split at h
  · next hfound =>
    cases h
    exact spells_of_hasWordAt ht (Option.filter_eq_some_iff.1 hfound).2
  · exact locates_locateLastWord ht offset h

end Source

end Concretion
