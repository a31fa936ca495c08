import Concretion.Recovery.Fragment

/-!
# Keys of members

`Rule.key` recovers the key of a member, which is an expression in brackets if it is computed.
-/

namespace Concretion

namespace Rule

open Recover

/-- The key of a member. -/
def key (member : MemberFragment) : Recover Unit := do
  if !member.isComputed then member.key.build
  else
    let keyRange := member.key.range
    let lbracket ←
      findLast .leftBracket "ComputedPropertyName" member.range.start keyRange.start
    let rbracket ← find .rightBracket "ComputedPropertyName" keyRange.finish member.range.finish
    let span ← mergeSpans lbracket.span rbracket.span
    enter (.leaf .computedName span) member.key.build

end Rule

end Concretion
