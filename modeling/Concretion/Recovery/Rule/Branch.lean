import Concretion.Recovery.Fragment

/-!
# Branching statements

Statements that decide by an expression in parentheses what is done: conditionals, `switch`
statements with their clauses, `while` and `do` loops, and `with` statements.
-/

namespace Concretion

namespace Rule

open Recover

/-- A conditional statement. An absent alternative has a placeholder. -/
def ifElse (range : Range) (test : Fragment) (pass : BlockFragment)
    (fail : Option BlockFragment) : Recover Unit := do
  let span ← rangeSpan range.start range.finish
  let lparen ← find .leftParen "If" (range.start + "if".utf8ByteSize) test.range.start
  let rparen ← find .rightParen "If" test.range.finish pass.range.start
  enter (.leaf (.ifElse lparen rparen) span) do
    test.build
    pass.build
    match fail with
    | some fail => fail.build
    | none =>
      let stack ← getStack
      attach (.empty ((stack.lastChild?.map Node.last).getD span.last))
    expectChildren 3

/-- A `switch` statement. -/
def switch (range : Range) (subject : Fragment) (cases : List (Range × Recover Unit)) :
    Recover Unit := do
  let span ← rangeSpan range.start range.finish
  let firstCase := (cases.head?.map (·.1.start)).getD range.finish
  let lparen ←
    find .leftParen "Switch" (range.start + "switch".utf8ByteSize) subject.range.start
  let rparen ← find .rightParen "Switch" subject.range.finish firstCase
  let lbrace ← find .leftBrace "Switch" (rparen.span.last + 1) firstCase
  let rbrace ← findEndingAt .rightBrace "Switch" (lbrace.span.last + 1) range.finish
  enter (.leaf (.switch lparen rparen lbrace rbrace) span) do
    subject.build
    cases.forM (·.2)

/-- The node of a clause with the given colon. -/
def caseNode (clause : CaseFragment) (kind : NodeKind) (colon : Symbol) : Recover Unit := do
  let span ← mergeSpans (← rangeSpan clause.range.start clause.range.finish) colon.span
  enter (.leaf kind span) do
    Fragment.buildOptional clause.test
    clause.statements.forM (·.build)

/-- A clause of a `switch` statement. A clause without statements may end before its colon. -/
def switchCase (clause : CaseFragment) : Recover Unit := do
  let bodyStart := (clause.statements.head?.map (·.range.start)).getD clause.range.finish
  match clause.test with
  | some test =>
    let colon ← find .colon "Case" test.range.finish bodyStart
    caseNode clause (.caseClause colon) colon
  | none =>
    let colon ← find .colon "Default" (clause.range.start + "default".utf8ByteSize) bodyStart
    caseNode clause (.defaultClause colon) colon

/-- A `while` loop, with its test in front of its body. -/
def whileLoop (range : Range) (test : Fragment) (body : BlockFragment) : Recover Unit := do
  let span ← rangeSpan range.start range.finish
  let lparen ← find .leftParen "While" (range.start + "while".utf8ByteSize) test.range.start
  let rparen ← find .rightParen "While" test.range.finish body.range.start
  enter (.leaf (.whileLoop lparen rparen) span) do
    test.build
    body.build

/-- A `do` loop, with its test behind its body. Its semicolon belongs to it. -/
def doLoop (range : Range) (test : Fragment) (body : BlockFragment) : Recover Unit := do
  let span ← rangeSpan range.start range.finish
  let lparen ← find .leftParen "Do" body.range.finish test.range.start
  let rparen ← find .rightParen "Do" test.range.finish range.finish
  let node ← within (.leaf (.doLoop lparen rparen) span) do
    body.build
    test.build
  attach { node with ownsSemicolon := ← endsWithSemicolon range.finish }

/-- A `with` statement. -/
def withScope (range : Range) (subject : Fragment) (body : BlockFragment) : Recover Unit := do
  let span ← rangeSpan range.start range.finish
  let lparen ←
    find .leftParen "With" (range.start + "with".utf8ByteSize) subject.range.start
  let rparen ← find .rightParen "With" subject.range.finish body.range.start
  enter (.leaf (.withScope lparen rparen) span) do
    subject.build
    body.build

end Rule

end Concretion
