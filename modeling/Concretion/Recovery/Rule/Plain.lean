import Concretion.Recovery.Fragment

/-!
# Plain statements

Statements without a header in parentheses, apart from blocks and declarations: expressions, empty
statements, throws, returns, jumps and labels. Their semicolon belongs to them.
-/

namespace Concretion

namespace Rule

open Recover

/-- The node with its semicolon, if one ends the statement at or behind the given offset. -/
def withSemicolon (node : Node) (finish : Nat) : Recover Node :=
  return { node with ownsSemicolon := ← terminates node finish }

/-- An expression as a statement. -/
def expressionStatement (expression : Fragment) : Recover Unit := do
  expression.build
  match (← getStack).lastChild? with
  | none => pure ()
  | some statement =>
    let statement ← withSemicolon statement expression.range.finish
    modifyStack (·.modifyCurrent (·.modifyLastChild fun _ => statement))

/-- A semicolon by itself. -/
def emptyStatement (range : Range) : Recover Unit := do
  let span ← rangeSpan range.start range.finish
  attach { Node.leaf .emptyStatement span with ownsSemicolon := true }

/-- A throw. -/
def throwStatement (range : Range) (value : Fragment) : Recover Unit := do
  let span ← rangeSpan range.start range.finish
  let node ← within (.leaf .throwStatement span) value.build
  attach (← withSemicolon node range.finish)

/-- A return. Without a value it has a placeholder behind its keyword. The expression body of an
arrow function is no return in the text. -/
def returnStatement (range : Range) (value : Option Fragment) (isGenerated : Bool) :
    Recover Unit := do
  if isGenerated then Fragment.buildOptional value
  else
    let span ← rangeSpan range.start range.finish
    let node ← within (.leaf .returnStatement span) <|
      match value with
      | some value => value.build
      | none => attach (.empty (min (range.start + "return".utf8ByteSize) span.last))
    attach (← withSemicolon node range.finish)

/-- The label that a jump names. -/
def jumpLabel (range : Range) (keyword label : String) : Recover Symbol := do
  let found :=
    (← source).locateWord keyword label (range.start + keyword.utf8ByteSize) range.finish
  let offset ← settle found (max (range.finish - label.utf8ByteSize) range.start)
  symbolAt ⟨.identifier, label⟩ offset

/-- A jump. -/
def jump (range : Range) (kind : JumpKind) (label : Option String) : Recover Unit := do
  let span ← rangeSpan range.start range.finish
  let label ← label.mapM (jumpLabel range kind.keyword)
  let nodeKind := match kind with
    | .break => NodeKind.breakStatement label
    | .continue => NodeKind.continueStatement label
  attach { Node.leaf nodeKind span with ownsSemicolon := ← endsWithSemicolon range.finish }

/-- A label and the statement under it. -/
def labelled (range : Range) (label : String) (body : BlockFragment) : Recover Unit := do
  let span ← rangeSpan range.start range.finish
  let labelEnd := range.start + label.utf8ByteSize
  let colon ← find .colon "Labelled" labelEnd body.range.start
  let name ← identifier range.start labelEnd label
  enter (.leaf (.labelled colon) span) do
    attach name
    body.build

end Rule

end Concretion
