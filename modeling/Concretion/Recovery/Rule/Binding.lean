import Concretion.Recovery.Rule.Class
import Concretion.Recovery.Rule.Export
import Concretion.Recovery.Rule.Leaf

/-!
# Bindings

Variables, and the declarations of functions and classes, which are bindings in the abstract tree.
The declarators of one statement are bindings of their own there; they are put together under the
keyword of the statement.

- `Rule.declaration`: a declarator, a name and its value.
- `Rule.variable`: a variable, as a statement or as a further declarator of the one before.
- `Rule.defaultExport`: the default export of an expression.
- `Rule.classDeclaration`: the declaration of a class.
- `Rule.binding`: a binding that declares no class.
-/

namespace Concretion

/-- Is this a node of variable declarations? -/
def NodeKind.isVar : NodeKind → Bool
  | var _ => true
  | _ => false

/-- Is this an export statement? -/
def NodeKind.isExport : NodeKind → Bool
  | exportStatement .. => true
  | _ => false

/-- Does the node declare variables, by itself or as the statement that it exports? -/
def Node.declaresVariables (node : Node) : Bool :=
  node.kind.isVar || (node.kind.isExport && node.lastChild?.any (·.kind.isVar))

namespace Rule

open Recover

/-! ## Declarators -/

/-- The value and then the name of a binding. -/
def valueAndName (binding : BindingFragment) : Recover Unit := do
  Fragment.buildOptional binding.init
  ident binding.name

/-- Value and name of a declarator, whose node has the given span. The value is recovered first and
comes second; an absent one has a placeholder. -/
def declarationParts (binding : BindingFragment) (span : Span) : Recover Unit := do
  valueAndName binding
  match (← getStack).current.childCount with
  | 2 => reorder [1, 0]
  | 1 => attach (.empty span.last)
  | count => throw (.shape "Declaration" (.declarationParts count) (some span))

/-- A declarator. -/
def declaration (binding : BindingFragment) : Recover Node := do
  let finish := binding.range.finish
  let valueEnd := match binding.init with
    | some init => max init.range.finish finish
    | none => finish
  let name := binding.name
  let span ← rangeSpan name.range.start (max valueEnd name.range.finish)
  let equal ← match binding.init with
    | some init => pure (some (← find .equal "Declaration" name.range.finish init.range.start))
    | none => pure none
  within (.leaf (.declaration equal) span) (declarationParts binding span)

/-! ## Variables -/

/-- Puts a declarator behind those of a node of variable declarations. -/
def addDeclarator (declarator node : Node) : Recover Node := do
  let span ← mergeSpans node.span declarator.span
  return { node with span := span, children := node.children ++ [declarator] }

/-- Extends a statement of variable declarations by a declarator. An export statement is extended
together with the declarations it holds. -/
def extendVariables (statement declarator : Node) : Recover Node := do
  if statement.kind.isVar then addDeclarator declarator statement
  else
    let span ← mergeSpans statement.span declarator.span
    let exported ← statement.lastChild?.toList.mapM (addDeclarator declarator)
    return { statement with span := span, children := statement.children.dropLast ++ exported }

/-- A further declarator of the statement before. -/
def continuedVariable (binding : BindingFragment) : Recover Unit := do
  let declarator ← declaration binding
  let terminated ← terminates declarator binding.range.finish
  match (← getStack).lastChild? with
  | some statement =>
    if statement.declaresVariables then
      let extended ← extendVariables statement declarator
      let extended := { extended with ownsSemicolon := terminated }
      modifyStack (·.modifyCurrent (·.modifyLastChild fun _ => extended))
    else throw (.shape "Var" .strayDeclarator (some declarator.span))
  | none => throw (.shape "Var" .strayDeclarator (some declarator.span))

/-- A statement of one variable with its keyword. -/
def variableStatement (binding : BindingFragment) (keywordStart windowStart : Nat) :
    Recover Unit := do
  let keyword ← symbolAt (.keyword binding.kind.keyword) keywordStart
  let declarator ← declaration binding
  let span ← spanBetween (min keywordStart declarator.start) declarator.last
  let node := Node.branch (.var keyword) span [declarator]
  let node := { node with ownsSemicolon := ← terminates node binding.range.finish }
  let status ← exportStatus binding.name.name
  attach (← exportIf status node windowStart)

/-- Where the keyword of a variable stands: one space before the name, or else last in the gap in
front of it. -/
def ownKeyword (keyword : String) (windowStart nameStart : Nat) : Recover (Option Nat) := do
  let text ← source
  let length := keyword.utf8ByteSize + 1
  if length ≤ nameStart && text.hasWordAt keyword (nameStart - length) then
    return some (nameStart - length)
  else return text.findLastWord keyword windowStart nameStart

/-- A variable. Without a keyword of its own it belongs to the declarations before it, if there are
any. -/
def variableBinding (binding : BindingFragment) : Recover Unit := do
  let keyword := binding.kind.keyword
  let nameStart := binding.name.range.start
  let windowStart ← gapStart
  match ← ownKeyword keyword windowStart nameStart with
  | some offset => variableStatement binding offset windowStart
  | none =>
    if (← getStack).lastChild?.any (·.declaresVariables) then continuedVariable binding
    else
      let found := (← source).locateLastWord "Var" keyword windowStart nameStart
      variableStatement binding (← settle found nameStart) windowStart

/-! ## Other bindings -/

/-- The default export of an expression, which is bound to a name made up for it. -/
def defaultExport (binding : BindingFragment) : Recover Unit := do
  match binding.init with
  | none =>
    let span ← rangeSpan binding.range.start binding.range.finish
    throw (.shape "Export" .exportWithoutValue (some span))
  | some init =>
    let windowStart ← gapStart
    let keyword ← findLastWord? "export" "Export" windowStart init.range.start
    let start := (keyword.map (·.span.start)).getD init.range.start
    let finish := max binding.range.finish init.range.finish
    let span ← rangeSpan start finish
    let node ← within (.leaf (.exportStatement keyword true none) span) init.build
    -- the name of a named function is not followed by a binding here
    let _ ← takeSkip
    attach { node with ownsSemicolon := ← terminates node finish }

/-- The declaration of a class under the given name, with its export status. -/
def exportedClass (definition : ClassFragment) (windowStart : Nat) (status : ExportStatus)
    (name : Option Ident) : Recover Unit := do
  let node ← classNode definition name
  attach (← exportIf status node windowStart)

/-- The declaration of a class. As a default export it has no name. -/
def classDeclaration (name : Ident) (definition : ClassFragment) : Recover Unit := do
  note (.bindingMet name.name)
  let windowStart ← gapStart
  if name.name == defaultBindingName then
    exportedClass definition windowStart ⟨true, true⟩ none
  else exportedClass definition windowStart (← exportStatus name.name) (some name)

/-- A binding that declares no class. The declaration of a function is a node already, and takes
the place of the binding. -/
def binding (binding : BindingFragment) : Recover Unit := do
  note (.bindingMet binding.name.name)
  if binding.name.name == defaultBindingName then defaultExport binding
  else if binding.isFunctionDeclaration then valueAndName binding
  else variableBinding binding

end Rule

end Concretion
