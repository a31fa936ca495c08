import Concretion.Recovery.Fragment

/-!
# Calls and member access

- `Rule.call`: a call, whose argument list is located before its callee is recovered and attached
  after it.
- `Rule.access`, `Rule.index`: access to a property by name and by value.
-/

namespace Concretion

namespace Rule

open Recover

/-- An argument list that begins at the offset. -/
def argumentParens (range : Range) (opening : Nat) : Recover (Option Node) := do
  let lparen ← symbolAt .leftParen opening
  let rparen ← findEndingAt .rightParen "Arguments" (lparen.span.last + 1) range.finish
  let span ← mergeSpans lparen.span rparen.span
  return some (.leaf (.arguments lparen rparen) span)

/-- The argument list of a call, without the arguments. A call without arguments may have no list
at all, as in a construction that is only a name. -/
def argumentList (range : Range) (calleeEnd : Nat) : List Fragment → Recover (Option Node)
  | first :: _ => do
    let found := (← source).locate "Arguments" "(" calleeEnd first.range.start
    argumentParens range (← settle found calleeEnd)
  | [] => do
    match (← source).find "(" calleeEnd range.finish with
    | none => return none
    | some opening => argumentParens range opening

/-- A call. -/
def call (range : Range) (callee : Fragment) (arguments : List Fragment) : Recover Unit := do
  let span ← rangeSpan range.start range.finish
  let list ← argumentList range callee.range.finish arguments
  enter (.leaf .invoke span) do
    match list with
    | none => callee.buildObject
    | some list =>
      let ticket ← defer list
      callee.buildObject
      let list ← takeDeferred ticket
      enter list (arguments.forM (·.build))

/-- Access to a property by name. The name takes the end of the range. -/
def access (range : Range) (base : Fragment) (property : String) : Recover Unit := do
  let span ← rangeSpan range.start range.finish
  let nameStart := max (range.finish - property.utf8ByteSize) base.range.finish
  let dot ← find .dot "GetProperty" base.range.finish nameStart
  let name ← identifier nameStart range.finish property
  enter (.leaf (.getProperty dot) span) do
    base.buildObject
    attach name

/-- Access to a property by value. -/
def index (range : Range) (base index : Fragment) : Recover Unit := do
  let span ← rangeSpan range.start range.finish
  let lbracket ← find .leftBracket "GetElement" base.range.finish index.range.start
  let rbracket ← findEndingAt .rightBracket "GetElement" index.range.finish range.finish
  enter (.leaf (.getElement lbracket rbracket) span) do
    base.buildObject
    index.build

end Rule

end Concretion
