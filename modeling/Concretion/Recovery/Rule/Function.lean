import Concretion.Recovery.Rule.Export
import Concretion.Recovery.Rule.Key

/-!
# Functions

A function node has its name, its parameters and its body below it. A method has its key in place
of a name, and an arrow function has no name.

- `Rule.parameters`: the parameter list, in parentheses unless it is the single parameter of an
  arrow function.
- `Rule.functionNode`: the node of a function, not attached anywhere.
- `Rule.functionExpression`: a function, exported if it declares an exported name.
-/

namespace Concretion

namespace Rule

open Recover

/-! ## Parameters -/

/-- The parentheses of an arrow function, if it starts with one. The closing one is the last in
front of the arrow. -/
def arrowParens (function : FunctionFragment) : Recover (Option (Nat × Nat)) := do
  let start := function.range.start
  let text ← source
  let arrow ← settle (text.locate "ArrowFunction" "=>" start function.range.finish)
    function.bodyStart
  if text.byteAt start != some 0x28 then return none
  let rparen ← settle (text.locateLast "ArrowFunction" ")" (start + 1) arrow) start
  return some (start, rparen)

/-- The parentheses between the name and the body of a function. -/
def functionParens (function : FunctionFragment) (nameEnd : Nat) : Recover (Nat × Nat) := do
  let text ← source
  let bodyStart := function.bodyStart
  let lparen ← settle (text.locate "Parameters" "(" nameEnd bodyStart) nameEnd
  let rparen ← settle (text.locateLast "Parameters" ")" (lparen + 1) bodyStart)
    (max (bodyStart - 1) lparen)
  return (lparen, rparen)

/-- The node of the parameter list, with or without parentheses. -/
def parameterNode (function : FunctionFragment) (parens : Option (Nat × Nat)) : Recover Node := do
  match parens with
  | some (opening, closing) =>
    let lparen ← symbolAt .leftParen opening
    let rparen ← symbolAt .rightParen closing
    let span ← mergeSpans lparen.span rparen.span
    return .leaf (.parameters (some lparen) (some rparen)) span
  | none =>
    let span ← match function.parameters.head?, function.parameters.getLast? with
      | some first, some last => rangeSpan first.range.start last.range.finish
      | _, _ => pure (Span.point function.range.start)
    return .leaf (.parameters none none) span

/-- The parameter list, without the parameters. -/
def parameterList (function : FunctionFragment) (nameEnd : Nat) : Recover Node := do
  let parens ←
    if function.kind == .arrow then arrowParens function
    else do pure (some (← functionParens function nameEnd))
  parameterNode function parens

/-- The node of a rest parameter, with its dots if they have been found. -/
def restElement (parameter : Ident) (ellipsis : Option Symbol) : Recover Unit := do
  let range := parameter.range
  let span ← rangeSpan ((ellipsis.map (·.span.start)).getD range.start) range.finish
  let name ← identifier range.start range.finish parameter.name
  attach (.branch (.restElement ellipsis) span [name])

/-- A parameter that collects the remaining arguments. -/
def restParameter (parameter : Ident) : Recover Unit := do
  let found := (← source).locateLast "RestElement" "..." (← gapStart) parameter.range.start
  match ← settle? found with
  | some offset => restElement parameter (some (← symbolAt .ellipsis offset))
  | none => restElement parameter none

/-- A parameter with its default value. -/
def defaultParameter (parameter : Ident) (value : Fragment) : Recover Unit := do
  let { start, finish } := parameter.range
  let equal ← find .equal "Declaration" finish value.range.start
  let span ← rangeSpan start value.range.finish
  let name ← identifier start finish parameter.name
  enter (.leaf (.declaration (some equal)) span) do
    attach name
    value.build

/-- A parameter. One that should have a default value and has none is taken as it is. -/
def parameter (function : FunctionFragment) (parameter : Ident) : Recover Unit := do
  if parameter.isRest then restParameter parameter
  else
    let value := function.defaults.lookup parameter.name
    match parameter.isDefault, value with
    | true, some value => defaultParameter parameter value
    | isDefault, _ =>
      if isDefault then note (.noDefaultValue parameter.name)
      attach (← identifier parameter.range.start parameter.range.finish parameter.name)

/-- What holds of a rest parameter, of a parameter with one of the default values, and of a name
with a warning or without holds of each parameter. -/
theorem parameter_cases {P : Recover Unit → Prop} {function : FunctionFragment} {parameter : Ident}
    (hrest : parameter.isRest = true → P (restParameter parameter))
    (hdefault : ∀ value, (parameter.name, value) ∈ function.defaults →
      P (defaultParameter parameter value))
    (hnote : P (do
      note (.noDefaultValue parameter.name)
      attach (← identifier parameter.range.start parameter.range.finish parameter.name)))
    (hname : P (do
      attach (← identifier parameter.range.start parameter.range.finish parameter.name))) :
    P (Rule.parameter function parameter) := by
  unfold Rule.parameter
  split
  · next h => exact hrest h
  · dsimp only
    split
    · next value _ hvalue =>
      obtain ⟨before, after, hdefaults, -⟩ := List.lookup_eq_some_iff.1 hvalue
      refine hdefault value ?_
      rw [hdefaults]
      exact List.mem_append_right _ List.mem_cons_self
    · split
      · exact hnote
      · exact hname

/-- The parameters of a function. -/
def parameters (function : FunctionFragment) (nameEnd : Nat) : Recover Unit := do
  enter (← parameterList function nameEnd) (function.parameters.forM (parameter function))

/-! ## Functions -/

/-- The keyword in front of the name of a function. It should stand one space before the name;
otherwise the last one in the gap counts. -/
def functionKeyword (nameStart : Nat) : Recover Nat := do
  let keyword := "function"
  let length := keyword.utf8ByteSize + 1
  let expected := if length ≤ nameStart then some (nameStart - length) else none
  let found :=
    (← source).locateWordAtOrBefore "Function" keyword expected (← gapStart) nameStart
  settle found nameStart

/-- Where a function begins: a method at its member or its name, an arrow function at its range, a
named function at its keyword, and all others at their name, which covers the keyword. -/
def functionStart (function : FunctionFragment) (member : Option MemberFragment) :
    Recover Nat := do
  let nameStart := function.name.range.start
  match member with
  | some member => return min member.range.start nameStart
  | none =>
    if function.kind == .arrow then return function.range.start
    else if (function.kind == .normal || function.kind == .generator)
        && !function.isAnonymous && !function.isMethod then
      functionKeyword nameStart
    else return nameStart

/-- The kind of node of a function. -/
def functionNodeKind (function : FunctionFragment) (isStatic : Bool) : NodeKind :=
  match function.kind with
  | .arrow => .arrowFunction
  | .generator => .generatorFunction isStatic
  | _ => .function isStatic

/-- The name of a function: the key of its member, nothing for an arrow function, a placeholder
for an anonymous function. -/
def functionName (function : FunctionFragment) (member : Option MemberFragment) :
    Recover Unit := do
  let name := function.name
  match member with
  | some member => key member
  | none =>
    if function.kind == .arrow then pure ()
    else if function.isAnonymous then attach (.empty name.range.start)
    else attach (← identifier name.range.start name.range.finish name.name)

/-- The node of a function. -/
def functionNode (function : FunctionFragment) (member : Option MemberFragment) :
    Recover Node := do
  let start ← functionStart function member
  let span ← rangeSpan start (max function.range.finish function.body.range.finish)
  let nameEnd := match member with
    | some member => member.key.range.finish
    | none => function.name.range.finish
  within (.leaf (functionNodeKind function (member.any (·.isStatic))) span) do
    functionName function member
    parameters function nameEnd
    function.body.build

/-- A function. If it is a declaration, its name belongs to it and not to the binding that comes
next. -/
def functionExpression (function : FunctionFragment) : Recover Unit := do
  note (.functionMet function.name.name)
  let windowStart ← gapStart
  let node ← functionNode function none
  let declared := function.isDeclared && !function.isAnonymous && !function.isMethod
  let status ← if declared then exportStatus function.name.name else pure .hidden
  attach (← exportIf status node windowStart)
  if declared then skipNextName

end Rule

end Concretion
