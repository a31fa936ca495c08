import Concretion.Recovery.Session

/-!
# Imports and exports from other modules

Import statements and exports of everything from another module are known from the metadata of a
module only. Their statements are found in the text and put among the statements of the program.

- `Rule.imports`: the import statements. Neighbouring entries for the same module are one
  statement.
- `Rule.starExports`: the statements that export everything from another module.
- `Rule.moduleItems`: merges both into the root, by their places.

A statement begins at its keyword and ends with the name of the module in quotes. What cannot be
located is left out.
-/

namespace Concretion

namespace Rule

open Recover

/-! ## Imports -/

/-- The node of a name that stands in the window as a whole word. -/
def importedName (name : String) (start finish : Nat) : Recover (Option Node) := do
  match ← settle? ((← source).locateWord "ImportSpecifier" name start finish) with
  | some offset => return some (← identifier offset (offset + name.utf8ByteSize) name)
  | none => return none

/-- The specifier of a namespace import: a star and the name for it. -/
def namespaceSpecifier (entry : ImportEntry) (start finish : Nat) : Recover (Option Node) := do
  match ← settle? ((← source).locate "ImportSpecifier" starName start finish) with
  | none => return none
  | some offset =>
    let star ← symbolAt .star offset
    match ← importedName entry.boundName (star.span.last + 1) finish with
    | none => return none
    | some name =>
      let span ← mergeSpans star.span name.span
      return some (.branch (.importSpecifier (some star)) span [name])

/-- The specifier around one name or two. -/
def specifierAround (first : Node) (second : Option Node) : Recover (Option Node) := do
  let span ← mergeSpans first.span (second.getD first).span
  return some (.branch (.importSpecifier none) span (first :: second.toList))

/-- The specifier of any other import: the imported name, and the local one if it differs. Of a
default import only the local name is written. -/
def nameSpecifier (entry : ImportEntry) (start finish : Nat) : Recover (Option Node) := do
  let written := if entry.isDefault then entry.boundName else entry.importName
  match ← importedName written start finish with
  | none => return none
  | some first =>
    if written == entry.boundName then specifierAround first none
    else specifierAround first (← importedName entry.boundName (first.last + 1) finish)

/-- The specifiers from one on that may have been found. `next` finds those behind it. -/
def specifiersBehind (next : Nat → Recover (List Node)) (start : Nat) (found : Option Node) :
    Recover (List Node) :=
  match found with
  | none => next start
  | some specifier => do
    return specifier :: (← next (specifier.last + 1))

/-- The specifiers of an import statement, each looked for behind the one before. -/
def specifiers (finish : Nat) : List ImportEntry → Nat → Recover (List Node)
  | [], _ => return []
  | entry :: rest, start =>
    if entry.isNamespace then
      namespaceSpecifier entry start finish >>= specifiersBehind (specifiers finish rest) start
    else nameSpecifier entry start finish >>= specifiersBehind (specifiers finish rest) start

/-- Keyword and module name of the next statement from `cursor` on: the first string that names the
module, and the last keyword in front of it. -/
def moduleStatement (keyword context request : String) (cursor : Nat) :
    Recover (Option (Symbol × Range)) := do
  let text ← source
  match ← settle? (text.locateString context request cursor text.size) with
  | none => return none
  | some path =>
    match ← settle? (text.locateLastWord context keyword cursor path.start) with
    | none => return none
    | some offset => return some (← symbolAt (.keyword keyword) offset, path)

/-- The import statement for entries of one module, and where to go on behind it. -/
def importStatement (request : String) (entries : List ImportEntry) (cursor : Nat) :
    Recover (Option Node × Nat) := do
  match ← moduleStatement "import" "Import" request cursor with
  | none => return (none, cursor)
  | some (keyword, path) =>
    let names ← specifiers path.start entries (keyword.span.last + 1)
    let pathSymbol ← symbolOver .string path.span
    return (some {
      kind := .importStatement keyword pathSymbol
      span := Span.ofBounds keyword.span.start path.finish
      children := names
      ownsSemicolon := ← endsWithSemicolon path.finish }, path.finish)

/-- The import statements for groups of entries. -/
def importGroups : List (List ImportEntry) → Nat → Recover (List Node)
  | [], _ => return []
  | entries :: rest, cursor => do
    let request := (entries.head?.map (·.request)).getD ""
    let (statement, cursor) ← importStatement request entries cursor
    return statement.toList ++ (← importGroups rest cursor)

/-- The import statements of a module. -/
def imports (entries : List ImportEntry) : Recover (List Node) :=
  importGroups (entries.splitBy fun a b => a.request == b.request) 0

/-! ## Exports -/

/-- The statements that export everything from another module, from `cursor` on. -/
def starExports : List ExportEntry → Nat → Recover (List Node)
  | [], _ => return []
  | entry :: rest, cursor => do
    match entry.request with
    | none => starExports rest cursor
    | some request =>
      match ← moduleStatement "export" "Export" request cursor with
      | none => starExports rest cursor
      | some (keyword, path) =>
        let pathSymbol ← symbolOver .string path.span
        let statement : Node := {
          kind := .exportStatement (some keyword) false (some pathSymbol)
          span := Span.ofBounds keyword.span.start path.finish
          children := []
          ownsSemicolon := ← endsWithSemicolon path.finish }
        return statement :: (← starExports rest path.finish)

/-! ## Merging -/

/-- Puts the import and export statements of a module among the statements of the program. -/
def moduleItems (info : ModuleInfo) : Recover Unit := do
  let items := (← imports info.imports) ++ (← starExports info.starExports 0)
  if !items.isEmpty then
    note (.moduleItems items.length)
    modifyStack fun stack =>
      stack.setChildren ((stack.children ++ items).mergeSort fun a b => a.start ≤ b.start)

end Rule

end Concretion
