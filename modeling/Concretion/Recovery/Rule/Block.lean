import Concretion.Recovery.Rule.Binding
import Concretion.Recovery.Rule.Loop

/-!
# Blocks

- `Rule.bracedBlock`: a block in braces is a list of statements that owns them.
- `Rule.parameterBlock`: of the body of a function with default parameters, the last statement is
  what is written.
- `Rule.syntheticBlock`: a block without braces has no node of its own. Declarations that belong to
  the header of the loop at its end are put back there.
-/

namespace Concretion

namespace Rule

open Recover

/-- A block in braces. -/
def bracedBlock (range : Range) (statements : List StatementFragment) : Recover Unit := do
  let _ ← rangeSpan range.start range.finish
  let lbrace ← findAtOrAfter .leftBrace "Statements" range.start range.finish
  let rbrace ← findEndingAt .rightBrace "Statements" (lbrace.span.last + 1) range.finish
  let span ← mergeSpans lbrace.span rbrace.span
  enter (.leaf (.statements (some lbrace) (some rbrace)) span) (statements.forM (·.build))

/-- The body of a function with default parameters. -/
def parameterBlock (range : Range) (statements : List StatementFragment) : Recover Unit := do
  match statements.getLast? with
  | some body => body.build
  | none =>
    let span ← rangeSpan range.start range.finish
    throw (.shape "Parameters" .parameterBlockWithoutBody (some span))

/-! ## Loop headers -/

/-- Does the statement declare a variable in the header of the loop? -/
def inHeader (loop : LoopFragment) (statement : StatementFragment) : Bool :=
  statement.isBinding && loop.range.start < statement.range.start
    && statement.range.finish ≤ loop.body.range.start

/-- Fails unless the node is one of variable declarations. -/
def expectVar (node : Node) : Recover Unit := do
  if !node.kind.isVar then
    throw (.shape "For" (.notADeclaration node.kind.name) (some node.span))

/-- Puts the declarators of a node behind those of another one. -/
def appendDeclarators (combined node : Node) : Recover Node := do
  expectVar node
  let span ← node.children.foldlM (fun span child => mergeSpans span child.span) combined.span
  return { combined with span := span, children := combined.children ++ node.children }

/-- All declarations of a loop header under the keyword of the first. The semicolons of a header
belong to the loop. -/
def combineDeclarations : List Node → Recover (Option Node)
  | [] => return none
  | first :: rest => do
    expectVar first
    let combined ← rest.foldlM appendDeclarators first
    return some { combined with
      children := combined.children.map fun child => { child with ownsSemicolon := false }
      ownsSemicolon := false }

/-- A loop with declarations in its header. -/
def declaringLoop (loop : LoopFragment) (declarations : List StatementFragment) :
    Recover Unit := do
  note (.declarationsMoved declarations.length loop.range.start)
  let span ← rangeSpan loop.range.start loop.body.range.start
  let collected ← within (.leaf (.statements none none) span) (declarations.forM (·.build))
  forLoop loop (← combineDeclarations collected.children)

/-- A block without braces. -/
def syntheticBlock (statements : List StatementFragment) : Recover Unit := do
  match statements.getLast?.bind (·.loop?) with
  | none => statements.forM (·.build)
  | some loop =>
    let rest := statements.dropLast
    let moved := (rest.reverse.takeWhile (inHeader loop)).length
    let before := rest.take (rest.length - moved)
    let declarations := rest.drop (rest.length - moved)
    before.forM (·.build)
    if declarations.isEmpty then forLoop loop none
    else declaringLoop loop declarations

/-- A block. -/
def block (range : Range) (kind : BlockKind) (statements : List StatementFragment) :
    Recover Unit :=
  match kind with
  | .braced => bracedBlock range statements
  | .parameter => parameterBlock range statements
  | .synthetic => syntheticBlock statements

end Rule

end Concretion
