import Concretion.Recovery.Rule.Leaf

/-!
# `try` statements

- `Rule.tryCatch`: a `try` statement. Its blocks are recovered in the order in which the abstract
  tree is walked, `finally` block first, and put in the order of the text afterwards. An absent
  `catch` or `finally` clause has a placeholder.
- `Rule.catchClause`: a `catch` clause.
-/

namespace Concretion

namespace Rule

open Recover

/-- A `catch` clause: its exception and its body. -/
def catchClause (range : Range) (exception : Ident) (body : BlockFragment) : Recover Unit := do
  let span ← rangeSpan range.start range.finish
  enter (.leaf .catchClause span) do
    ident exception
    body.build

/-- Puts the last of the three parts of a `try` statement under a `finally` clause with its
keyword. -/
def finallyClause (finallyStart : Nat) : Recover Unit := do
  match (← getStack).children with
  | [body, handler, block] =>
    let keyword ← findWord "finally" "Finally" (max body.last handler.last + 1) finallyStart
    let span ← mergeSpans keyword.span block.span
    wrapChild 2 (.leaf (.finallyClause keyword) span)
  | children => throw ((← getStack).fault (.childCount 3 children.length))

/-- Turns the block of a `finally` clause, which has become the last part, into that clause. -/
def finallyLast (finalizer : Option BlockFragment) : Recover Unit :=
  match finalizer with
  | none => pure ()
  | some finalizer => finallyClause finalizer.range.start

/-- The block of a `finally` clause, or a placeholder. -/
def finallyBlock (finalizer : Option BlockFragment) (last : Nat) : Recover Unit :=
  match finalizer with
  | none => attach (.empty last)
  | some finalizer => finalizer.build

/-- The order in which the parts of a `try` statement are put once there are three. -/
def tryEnd (finalizer : Option BlockFragment) : Recover Unit := do
  expectChildren 3
  reorder [1, 2, 0]
  finallyLast finalizer

/-- The parts of a `try` statement that ends at the offset. -/
def tryParts (body : BlockFragment) (catches : List (Recover Unit))
    (finalizer : Option BlockFragment) (last : Nat) : Recover Unit := do
  finallyBlock finalizer last
  body.build
  catches.forM id
  if catches.isEmpty then
    let stack ← getStack
    attach (.empty ((stack.lastChild?.map Node.last).getD last))
  tryEnd finalizer

/-- A `try` statement. -/
def tryCatch (range : Range) (body : BlockFragment) (catches : List (Recover Unit))
    (finalizer : Option BlockFragment) : Recover Unit := do
  note (.tryMet range.start)
  let span ← rangeSpan range.start range.finish
  if 1 < catches.length then
    throw (.shape "Try" (.severalCatches catches.length) (some span))
  else enter (.leaf .tryCatch span) (tryParts body catches finalizer span.last)

end Rule

end Concretion
