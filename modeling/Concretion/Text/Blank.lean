/-!
# Blank characters

The characters with the Unicode property White_Space, which never belong to a literal at either
end. The set has been the same since Unicode 6.3.

- `isBlank`: membership, by a table of ranges.
- `trimmed`: a text without the blank characters at its two ends, with the width of what was cut
  off in front.
-/

namespace Concretion

namespace Text

/-- Closed ranges of code points with the property White_Space, ascending and apart. -/
def blankRanges : List (Nat × Nat) :=
  [(0x09, 0x0D), (0x20, 0x20), (0x85, 0x85), (0xA0, 0xA0), (0x1680, 0x1680), (0x2000, 0x200A),
   (0x2028, 0x2029), (0x202F, 0x202F), (0x205F, 0x205F), (0x3000, 0x3000)]

/-- Has the character the property White_Space? -/
def isBlank (c : Char) : Bool :=
  blankRanges.any fun range => range.1 ≤ c.toNat && c.toNat ≤ range.2

/-- The number of bytes that characters take in UTF-8. -/
def width : List Char → Nat
  | [] => 0
  | c :: rest => c.utf8Size + width rest

@[simp] theorem width_nil : width [] = 0 := rfl

theorem width_cons (c : Char) (rest : List Char) :
    width (c :: rest) = c.utf8Size + width rest := rfl

theorem width_append (a b : List Char) : width (a ++ b) = width a + width b := by
  induction a with
  | nil => rw [List.nil_append, width_nil, Nat.zero_add]
  | cons c rest ih => rw [List.cons_append, width_cons, width_cons, ih, Nat.add_assoc]

theorem width_reverse (chars : List Char) : width chars.reverse = width chars := by
  induction chars with
  | nil => rfl
  | cons c rest ih =>
    rw [List.reverse_cons, width_append, ih, width_cons, width_cons, width_nil, Nat.add_zero,
      Nat.add_comm]

theorem width_takeWhile_add (p : Char → Bool) (chars : List Char) :
    width (chars.takeWhile p) + width (chars.dropWhile p) = width chars := by
  rw [← width_append, List.takeWhile_append_dropWhile]

/-- Characters take up room. -/
theorem width_pos {chars : List Char} (h : chars ≠ []) : 0 < width chars := by
  obtain ⟨c, rest, rfl⟩ := List.exists_cons_of_ne_nil h
  rw [width_cons]
  exact Nat.add_pos_left c.utf8Size_pos _

/-- The characters between the blank ends of a text, with the number of bytes in front of them. -/
def trimmed (chars : List Char) : Nat × List Char :=
  (width (chars.takeWhile isBlank),
    ((chars.dropWhile isBlank).reverse.dropWhile isBlank).reverse)

/-- What is left between the blank ends lies within the text. -/
theorem trimmed_le (chars : List Char) :
    (trimmed chars).1 + width (trimmed chars).2 ≤ width chars := by
  have hfront := width_takeWhile_add isBlank chars
  have hback := width_takeWhile_add isBlank (chars.dropWhile isBlank).reverse
  rw [width_reverse] at hback
  rw [trimmed, width_reverse]
  dsimp only
  omega

end Text

end Concretion
