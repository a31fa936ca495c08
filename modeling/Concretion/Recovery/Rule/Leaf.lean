import Concretion.Recovery.Fragment
import Concretion.Text.Blank

/-!
# Identifiers and literals

- `Rule.ident`: an identifier, unless it is the name of a function declaration met before.
- `Rule.literal`: a literal without parts. A number may be given a range that runs into a comment
  behind it, and the range of a string leaves its quotes out.
-/

namespace Concretion

namespace Rule

open Recover

/-- An identifier at its own range. -/
def ident (name : Ident) : Recover Unit := do
  if ← takeSkip then note (.bindingSkipped name.name)
  else attach (← identifier name.range.start name.range.finish name.name)

/-- A literal whose value is the text at its range. -/
def verbatim (range : Range) (token : TokenKind) (kind : Symbol → NodeKind) : Recover Node := do
  let span ← rangeSpan range.start range.finish
  return .leaf (kind (← symbolOver token span)) span

/-- The node of a number with the given span. -/
def numeral (span : Span) : Recover Node := do
  return .leaf (.number (← symbolOver .number span)) span

/-- A number. It ends before the first slash of its range, and blanks at its ends do not count;
if nothing is left, it keeps its range. -/
def number (range : Range) : Recover Node := do
  let full ← rangeSpan range.start range.finish
  let text := ((← source).slice range.start range.finish).getD ""
  let (indent, digits) := Text.trimmed (text.toList.takeWhile (· != '/'))
  if digits.isEmpty then numeral full
  else
    let start := range.start + indent
    numeral (← spanBetween start (start + Text.width digits - 1))

/-- The quote that a string is put in: the one that its opening byte shows, or else a double one. -/
def quoteShown (span : Span) (found : Option UInt8) : Recover String :=
  if found == some 0x27 then pure "'"
  else do
    if found != some 0x22 then note (.notQuoted span found)
    pure "\""

/-- The node of a string in the given quotes. -/
def quotedLeaf (span : Span) (value quote : String) : Recover Node := do
  intern (quote ++ value ++ quote)
  return .leaf (.string ⟨.string, span, quote ++ value ++ quote⟩) span

/-- A string, from its opening quote through its closing one. Its value is put in the quotes that
the opening one shows, or in double quotes if there is none. -/
def string (range : Range) (value : String) : Recover Node := do
  let text ← source
  if range.start == 0 then throw (.badRange range.start range.finish text.size)
  else
    let span ← rangeSpan (range.start - 1) (range.finish + 1)
    quotedLeaf span value (← quoteShown span (text.byteAt (range.start - 1)))

/-- A literal without parts. -/
def literal (range : Range) (value : Literal) : Recover Unit := do
  attach (← match value with
    | .number => number range
    | .string value => string range value
    | .boolean true => verbatim range .trueLiteral .trueLiteral
    | .boolean false => verbatim range .falseLiteral .falseLiteral
    | .null => verbatim range .nullLiteral .nullLiteral
    | .regex => verbatim range .regex .regex)

end Rule

end Concretion
