import Concretion.Recovery.Fragment

/-!
# Classes

A class node has its name, its superclass and its body below it, the first two if there are any.

- `Rule.classNode`: the node of a class under a given name, not attached anywhere.
- `Rule.classExpression`: a class under its own name.
-/

namespace Concretion

namespace Rule

open Recover

/-- The body of a class: its members in the order of their places. -/
def classBody (definition : ClassFragment) : Recover Unit := do
  let afterHeader :=
    match definition.heritage, definition.name with
    | some heritage, _ => heritage.range.finish
    | none, some name => name.range.finish
    | none, none => definition.range.start + "class".utf8ByteSize
  let lbrace ← find .leftBrace "Class" afterHeader definition.range.finish
  let rbrace ←
    findEndingAt .rightBrace "Class" (lbrace.span.last + 1) definition.range.finish
  let span ← mergeSpans lbrace.span rbrace.span
  let members := definition.elements.mergeSort fun a b => a.range.start ≤ b.range.start
  enter (.leaf (.statements (some lbrace) (some rbrace)) span) (members.forM (·.build))

/-- The node of a class. The name is recovered last and comes first. -/
def classNode (definition : ClassFragment) (name : Option Ident) : Recover Node := do
  note (.classMet definition.range.start)
  let span ← rangeSpan definition.range.start definition.range.finish
  within (.leaf .classDefinition span) do
    Fragment.buildOptional definition.heritage
    classBody definition
    match name with
    | none => pure ()
    | some name =>
      attach (← identifier name.range.start name.range.finish name.name)
      if (← getStack).current.childCount == 2 then reorder [1, 0]
      else reorder [2, 0, 1]

/-- A class as an expression. -/
def classExpression (definition : ClassFragment) : Recover Unit := do
  attach (← classNode definition definition.name)

end Rule

end Concretion
