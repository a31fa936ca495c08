/-!
# Spans and ranges

Positions in a source text are byte offsets. Two shapes of interval are in use:

- `Span`: both ends inclusive, the shape of every node and symbol of a concrete tree. A span of
  one byte has equal ends, and there is no empty span.
- `Range`: half-open, the shape in which an abstract tree gives its positions.
- `Span.make` is the checked constructor: it refuses ends in the wrong order with `Span.Reversed`.
- `Span.merge` is the least span around two spans.
-/

namespace Concretion

/-- An inclusive interval of byte offsets. -/
structure Span where
  /-- Offset of the first byte. -/
  start : Nat
  /-- Offset of the last byte. -/
  last : Nat
  deriving DecidableEq, Repr, Inhabited

/-- A half-open interval of byte offsets. -/
structure Range where
  /-- Offset of the first byte. -/
  start : Nat
  /-- One past the offset of the last byte. -/
  finish : Nat
  deriving DecidableEq, Repr, Inhabited

/-- A labelled stretch of text as a diagnostic shows it: where it begins, and how many bytes. -/
structure Label where
  offset : Nat
  length : Nat
  deriving DecidableEq, Repr, Inhabited

namespace Span

/-- Ends in the wrong order, which no span may have. -/
structure Reversed where
  start : Nat
  last : Nat
  deriving DecidableEq, Repr, Inhabited

/-- What is said of ends in the wrong order. -/
def Reversed.message (r : Reversed) : String :=
  s!"span end {r.last} lies before span start {r.start}"

/-- The ends of a span are in order. -/
def Ordered (s : Span) : Prop := s.start ≤ s.last

instance (s : Span) : Decidable s.Ordered := inferInstanceAs (Decidable (s.start ≤ s.last))

/-- The span with the given ends, refused when they are in the wrong order. -/
def make (start last : Nat) : Except Reversed Span :=
  if start ≤ last then .ok ⟨start, last⟩ else .error ⟨start, last⟩

/-- The span of a half-open interval. An empty interval collapses onto its start, so the ends
are always in order. -/
def ofBounds (start finish : Nat) : Span := ⟨start, max (finish - 1) start⟩

/-- The span of a single offset. -/
def point (offset : Nat) : Span := ⟨offset, offset⟩

/-- The number of bytes covered. -/
def length (s : Span) : Nat := s.last - s.start + 1

/-- The least interval around both spans, whether or not they meet. -/
def merge (a b : Span) : Except Reversed Span :=
  make (min a.start b.start) (max a.last b.last)

/-- Does `b` lie completely inside `a`? -/
def contains (a b : Span) : Bool := a.start ≤ b.start && b.last ≤ a.last

/-- Does the offset lie inside the span? -/
def containsOffset (a : Span) (offset : Nat) : Bool := a.start ≤ offset && offset ≤ a.last

/-- Does one span end before the other starts? -/
def disjoint (a b : Span) : Bool := a.last < b.start || b.last < a.start

/-- Spans are ordered by start, then by end. -/
def order (a b : Span) : Ordering := (compare a.start b.start).then (compare a.last b.last)

/-- The stretch of text that a diagnostic about the span marks. -/
def label (s : Span) : Label := ⟨s.start, s.length⟩

/-- Spans are written with both ends, the last byte included. -/
def text (s : Span) : String := s!"{s.start}..{s.last}"

@[simp] theorem make_of_le {start last : Nat} (h : start ≤ last) :
    make start last = .ok ⟨start, last⟩ := by
  simp [make, h]

theorem make_eq_ok_iff {start last : Nat} {s : Span} :
    make start last = .ok s ↔ start ≤ last ∧ s = ⟨start, last⟩ := by
  unfold make
  split
  · next h => simp [h, eq_comm]
  · next h => simp [h]

theorem ordered_ofBounds (start finish : Nat) : (ofBounds start finish).Ordered := by
  simp only [Ordered, ofBounds]
  omega

theorem ordered_point (offset : Nat) : (point offset).Ordered := Nat.le_refl offset

/-- Merging is only refused when both spans have their ends in the wrong order. -/
theorem merge_of_ordered {a b : Span} (h : a.Ordered ∨ b.Ordered) :
    merge a b = .ok ⟨min a.start b.start, max a.last b.last⟩ := by
  apply make_of_le
  simp only [Ordered] at h
  omega

end Span

namespace Range

/-- The span covered by a range. -/
def span (r : Range) : Span := Span.ofBounds r.start r.finish

end Range

end Concretion
