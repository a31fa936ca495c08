import Concretion.Recovery.Fragment

/-!
# Array and object literals

- `Rule.array`: an array literal. An element left out becomes a placeholder at the end of the
  element before it, so that every element has a node.
- `Rule.object`: an object literal.
-/

namespace Concretion

namespace Rule

open Recover

/-- An element of an array literal, or the placeholder of one left out. -/
def element (hole : Nat) (fragment : Option Fragment) : Recover Unit := do
  match fragment with
  | some fragment => fragment.build
  | none =>
    let stack ← getStack
    attach (.elision ((stack.lastChild?.map Node.last).getD hole))

/-- An array literal. -/
def array (range : Range) (elements : List (Option Fragment)) : Recover Unit := do
  let span ← rangeSpan range.start range.finish
  let lbracket ← findAtOrAfter .leftBracket "Array" range.start range.finish
  let rbracket ← findEndingAt .rightBracket "Array" (lbracket.span.last + 1) range.finish
  enter (.leaf (.array lbracket rbracket) span) do
    elements.forM (element lbracket.span.start)
    let count := (← getStack).current.childCount
    if count != elements.length then
      throw (.shape "Array" (.elementCount elements.length count) (some span))

/-- An object literal. -/
def object (range : Range) (members : List (Recover Unit)) : Recover Unit := do
  let span ← rangeSpan range.start range.finish
  let lbrace ← findAtOrAfter .leftBrace "Object" range.start range.finish
  let rbrace ← findEndingAt .rightBrace "Object" (lbrace.span.last + 1) range.finish
  enter (.leaf (.object lbrace rbrace) span) (members.forM id)

end Rule

end Concretion
