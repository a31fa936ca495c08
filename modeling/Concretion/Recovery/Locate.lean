import Concretion.Recovery.Failure
import Concretion.Text.Source

/-!
# Locating tokens

The searches of a source text, with a `Missing` token in place of no answer. Each search is bounded
by a window that the caller derives from the places of neighbouring nodes, and knows what is being
recovered.
-/

namespace Concretion

namespace Source

variable (source : Source)

/-- The report of a token missing from a window. Only the part of the window inside the text is
marked, and nothing if the window starts behind the text. -/
def missing (context token : String) (start finish : Nat) : Missing :=
  { token, start, finish, context
    label :=
      if start ≤ source.size then
        some (Span.ofBounds start (max start (min finish source.size))).label
      else none }

/-- The first occurrence of a token in the window. -/
def locate (context token : String) (start finish : Nat) : Except Missing Nat :=
  match source.find token start finish with
  | some offset => .ok offset
  | none => .error (source.missing context token start finish)

/-- The last occurrence of a token in the window. -/
def locateLast (context token : String) (start finish : Nat) : Except Missing Nat :=
  match source.findLast token start finish with
  | some offset => .ok offset
  | none => .error (source.missing context token start finish)

/-- The first occurrence of a whole word in the window. -/
def locateWord (context word : String) (start finish : Nat) : Except Missing Nat :=
  match source.findWord word start finish with
  | some offset => .ok offset
  | none => .error (source.missing context word start finish)

/-- The last occurrence of a whole word in the window. -/
def locateLastWord (context word : String) (start finish : Nat) : Except Missing Nat :=
  match source.findLastWord word start finish with
  | some offset => .ok offset
  | none => .error (source.missing context word start finish)

/-- The expected offset if the word stands there, and otherwise its last occurrence in the
window. -/
def locateWordAtOrBefore (context word : String) (expected : Option Nat) (start finish : Nat) :
    Except Missing Nat :=
  match expected.filter (source.hasWordAt word) with
  | some offset => .ok offset
  | none => source.locateLastWord context word start finish

/-- The range of the string literal with the given content that starts in the window. -/
def locateString (context content : String) (start finish : Nat) : Except Missing Range :=
  match source.findString content start finish with
  | some range => .ok range
  | none => .error (source.missing context ("'" ++ content ++ "'") start finish)

/-- The span of a range of the text. Refused are ranges that leave the text or cut a character
in two. -/
def rangeSpan (start finish : Nat) : Except Failure Span :=
  if start ≤ finish && finish ≤ source.size && source.isBoundary start
      && source.isBoundary finish then
    .ok (Span.ofBounds start finish)
  else .error (.badRange start finish source.size)

/-- Does a semicolon end the statement that finishes at the offset? It may be the last byte of the
statement, or the next significant one after it. -/
def endsWithSemicolon (finish : Nat) : Bool :=
  (finish != 0 && source.byteAt (finish - 1) == some 0x3B) ||
    (source.nextSignificant finish).bind source.byteAt == some 0x3B

end Source

end Concretion
