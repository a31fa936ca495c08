import Concretion.Recovery.Fragment

/-!
# `for` loops

- `Rule.forLoop`: a `for` loop of any kind. Declarations in its header come from outside, since the
  abstract tree has them in front of the loop; they take the place of the initialisation. Absent
  clauses of a counting loop have placeholders.
-/

namespace Concretion

namespace Rule

open Recover

/-- A clause of a loop header, or the placeholder of an absent one. -/
def clause (fragment : Option Fragment) (placeholder : Nat) : Recover Unit :=
  match fragment with
  | some fragment => fragment.build
  | none => attach (.empty placeholder)

/-- The first clause of a loop header. -/
def firstClause (declaration : Option Node) (init : Option Fragment) (placeholder : Nat) :
    Recover Unit :=
  match declaration with
  | some declaration => attach declaration
  | none => clause init placeholder

/-- The body of a loop. A body that leaves no node is an empty list of statements. -/
def loopBody (body : BlockFragment) : Recover Unit := do
  let before := (← getStack).current.childCount
  body.build
  if (← getStack).current.childCount == before then
    let span ← rangeSpan body.range.start body.range.finish
    attach (.leaf (.statements none none) span)

/-- Where an optional clause starts. -/
def startOf? (fragment : Option Fragment) : Option Nat := fragment.map (·.range.start)

/-- Where an optional clause finishes. -/
def finishOf? (fragment : Option Fragment) : Option Nat := fragment.map (·.range.finish)

/-- A counting loop, whose header has been read up to `initEnd`. -/
def classicLoop (loop : LoopFragment) (declaration : Option Node) (span : Span)
    (lparen : Symbol) (initEnd : Nat) : Recover Unit := do
  let bodyStart := loop.body.range.start
  let testStart := ((startOf? loop.test).or (startOf? loop.update)).getD bodyStart
  let semi1 ← find .semicolon "For" initEnd testStart
  let testEnd := (finishOf? loop.test).getD (semi1.span.last + 1)
  let semi2 ← find .semicolon "For" testEnd ((startOf? loop.update).getD bodyStart)
  let updateEnd := (finishOf? loop.update).getD (semi2.span.last + 1)
  let rparen ← findLast .rightParen "For" updateEnd bodyStart
  enter (.leaf (.forLoop lparen semi1 semi2 rparen) span) do
    firstClause declaration loop.init lparen.span.start
    clause loop.test semi1.span.start
    clause loop.update semi2.span.start
    loopBody loop.body
    expectChildren 4

/-- A loop over keys or values, whose header has been read up to `initEnd`. -/
def rangingLoop (loop : LoopFragment) (declaration : Option Node) (span : Span)
    (lparen : Symbol) (initEnd : Nat) : Recover Unit := do
  let bodyStart := loop.body.range.start
  let word := if loop.kind == .keys then "in" else "of"
  let keyword ← findWord word "ForIn" initEnd ((startOf? loop.update).getD bodyStart)
  let objectEnd := (finishOf? loop.update).getD (keyword.span.last + 1)
  let rparen ← findLast .rightParen "ForIn" objectEnd bodyStart
  let kind :=
    if loop.kind == .keys then NodeKind.forIn lparen keyword rparen
    else NodeKind.forOf lparen keyword rparen
  enter (.leaf kind span) do
    firstClause declaration loop.init lparen.span.start
    clause loop.update keyword.span.last
    loopBody loop.body
    expectChildren 3

/-- A `for` loop. -/
def forLoop (loop : LoopFragment) (declaration : Option Node) : Recover Unit := do
  let span ← rangeSpan loop.range.start loop.range.finish
  let headerStart :=
    ((declaration.map Node.start).or (startOf? loop.init)).or
      ((startOf? loop.test).or (startOf? loop.update))
  let lparen ← find .leftParen "For" (loop.range.start + "for".utf8ByteSize)
    (headerStart.getD loop.body.range.start)
  let initEnd :=
    ((declaration.map (·.last + 1)).or (finishOf? loop.init)).getD (lparen.span.last + 1)
  match loop.kind with
  | .classic => classicLoop loop declaration span lparen initEnd
  | .keys | .values => rangingLoop loop declaration span lparen initEnd

end Rule

end Concretion
