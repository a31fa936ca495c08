import Concretion.Span
import Concretion.Text.Bytes
import Concretion.Text.Scan
import Concretion.Text.Search

/-!
# Source texts

A source text comes with its bytes and its comments and literals, and answers where a token stands.
Windows are half-open intervals of offsets; a match lies in a window when it starts there.

- `Source`: a text, its bytes, its trivia, and whether searches skip the trivia.
- `Source.slice`, `Source.byteAt`, `Source.charAt`: what stands at an offset.
- `Source.triviaAt`: the comment or literal around an offset, by binary search.
- `Source.find`, `Source.findLast`, `Source.findWord`, `Source.findLastWord`: token searches.
- `Source.findString`: the string literal with a given content.
- `Source.nextSignificant`: the next offset that is neither blank nor comment.
-/

namespace Concretion

open Text

/-- Whether searches look into comments and literals. -/
inductive ScanMode where
  /-- A match never starts inside a comment or literal. -/
  | skipTrivia
  /-- Every byte of the text counts. -/
  | raw
  deriving DecidableEq, Repr, Inhabited

/-- A text prepared for searching. -/
structure Source where
  text : String
  mode : ScanMode
  bytes : Array UInt8
  trivia : Array Trivia
  bytes_eq : bytes = encoded text
  trivia_eq : trivia = (Scan.scan bytes.toList).toArray

namespace Source

/-- Prepares a text for searching. -/
def ofString (text : String) (mode : ScanMode) : Source where
  text := text
  mode := mode
  bytes := encoded text
  trivia := (Scan.scan (encoded text).toList).toArray
  bytes_eq := rfl
  trivia_eq := rfl

variable (source : Source)

/-! ## What stands at an offset -/

/-- The number of bytes. -/
def size : Nat := source.bytes.size

/-- The byte at an offset. -/
def byteAt (offset : Nat) : Option UInt8 := source.bytes[offset]?

/-- Is the offset the start of a character, or the end of the text? -/
def isBoundary (offset : Nat) : Bool := Text.isBoundary source.bytes offset

/-- The text between two offsets, provided that they are in order, inside the text, and do not cut
a character in two. -/
def slice (start finish : Nat) : Option String :=
  if start ≤ finish && finish ≤ source.size && source.isBoundary start && source.isBoundary finish
  then String.fromUTF8? ⟨source.bytes.extract start finish⟩
  else none

/-- The character that starts at an offset. -/
def charAt (offset : Nat) : Option Char :=
  (source.slice offset source.size).bind (·.toList.head?)

/-! ## Trivia -/

/-- Does the range with the given index end at or before the offset? -/
def endsBefore (offset index : Nat) : Bool :=
  source.trivia[index]?.any fun trivia => trivia.finish ≤ offset

/-- The comment or literal around an offset, whatever the scan mode. The ranges are in order, so
the candidate is the first that does not end at or before the offset. -/
def triviaAt (offset : Nat) : Option Trivia :=
  let candidate := Search.partitionPoint (source.endsBefore offset) 0 source.trivia.size
  source.trivia[candidate]?.filter fun trivia => trivia.start ≤ offset

/-- Do searches skip the offset? -/
def inTrivia (offset : Nat) : Bool :=
  source.mode == .skipTrivia && (source.triviaAt offset).isSome

/-- A range found around an offset ends behind it. -/
theorem lt_finish_of_triviaAt {source : Source} {offset : Nat} {trivia : Trivia}
    (h : source.triviaAt offset = some trivia) : offset < trivia.finish := by
  simp only [triviaAt, Option.filter_eq_some_iff] at h
  obtain ⟨found, -⟩ := h
  rcases Search.partitionPoint_stops (source.endsBefore offset) 0 source.trivia.size
    (Nat.zero_le _) with stop | stop
  · rw [stop] at found
    simp at found
  · simp only [endsBefore] at stop found
    rw [found] at stop
    simpa using stop

/-! ## Matches -/

/-- Does the pattern stand at the offset, outside of what searches skip? -/
def matchesAt (bytes : List UInt8) (offset : Nat) : Bool :=
  startsAt source.bytes bytes offset && !source.inTrivia offset

/-- Does the pattern stand at the offset without being part of a longer word? Only a pattern made
of ASCII letters can be. -/
def wordMatchesAt (alphabetic : Bool) (bytes : List UInt8) (offset : Nat) : Bool :=
  source.matchesAt bytes offset &&
    (!alphabetic ||
      (!(offset != 0 && (source.byteAt (offset - 1)).any isWordByte) &&
        !(source.byteAt (offset + bytes.length)).any isWordByte))

/-- Does the word stand at the offset? -/
def hasWordAt (word : String) (offset : Nat) : Bool :=
  decide (offset < source.size) &&
    source.wordMatchesAt (isAlphabetic word) (pattern word) offset

/-! ## Searches -/

/-- The first match of the token in the window. -/
def find (token : String) (start finish : Nat) : Option Nat :=
  Search.firstFrom (source.matchesAt (pattern token)) start (min finish source.size - start)

/-- The last match of the token in the window. -/
def findLast (token : String) (start finish : Nat) : Option Nat :=
  Search.lastFrom (source.matchesAt (pattern token)) start (min finish source.size - start)

/-- The last match of the token that starts at or before an offset. -/
def findLastUpTo (token : String) (offset : Nat) : Option Nat :=
  source.findLast token 0 (offset + 1)

/-- The first match of the word in the window. -/
def findWord (word : String) (start finish : Nat) : Option Nat :=
  Search.firstFrom (source.wordMatchesAt (isAlphabetic word) (pattern word)) start
    (min finish source.size - start)

/-- The last match of the word in the window. -/
def findLastWord (word : String) (start finish : Nat) : Option Nat :=
  Search.lastFrom (source.wordMatchesAt (isAlphabetic word) (pattern word)) start
    (min finish source.size - start)

/-- Is the range a literal in quotes around the given content? -/
def isQuoted (content : List UInt8) (trivia : Trivia) : Bool :=
  let written := (source.bytes.extract trivia.start trivia.finish).toList
  trivia.kind == .literal && [0x27, 0x22].any fun quote => written == quote :: content ++ [quote]

/-- The range of the first string literal in the window that has the given content. -/
def findString (content : String) (start finish : Nat) : Option Range :=
  let content := pattern content
  (source.trivia.find? fun trivia =>
    start ≤ trivia.start && trivia.start < finish && source.isQuoted content trivia).map
      fun trivia => ⟨trivia.start, trivia.finish⟩

/-- The first offset from `offset` on that holds neither blank space nor, unless the text is
searched raw, a part of a comment. Literals are significant. -/
def nextSignificant (offset : Nat) : Option Nat :=
  if inside : offset < source.bytes.size then
    match around : source.triviaAt offset with
    | some trivia =>
      if trivia.kind == .comment && source.mode == .skipTrivia then
        nextSignificant trivia.finish
      else if isBlankByte source.bytes[offset] then nextSignificant (offset + 1)
      else some offset
    | none =>
      if isBlankByte source.bytes[offset] then nextSignificant (offset + 1) else some offset
  else none
termination_by source.bytes.size - offset
decreasing_by
  · have := lt_finish_of_triviaAt around
    omega
  · omega
  · omega

end Source

end Concretion
