/-!
# Module metadata

A program that is a module comes with its imports and exports as data; the abstract tree itself
has no import or export statements.

- `ImportEntry`, `ExportEntry`: one imported binding, one export.
- `ModuleInfo`: the imports and exports of a module.
- `ExportStatus.of`: whether a binding is exported, and whether as the default export.
-/

namespace Concretion

/-- The imported name of a namespace import. -/
def starName : String := "*"

/-- The export name of the default export. -/
def defaultName : String := "default"

/-- The name invented for the binding of a default export that is an expression. -/
def defaultBindingName : String := "*default*"

/-- One imported binding. -/
structure ImportEntry where
  /-- The name of the module imported from, without quotes. -/
  request : String
  importName : String
  localName : Option String
  deriving DecidableEq, Repr, Inhabited

/-- One export. -/
structure ExportEntry where
  exportName : Option String
  localName : Option String
  /-- The name of the module exported from, without quotes, if it is another one. -/
  request : Option String
  deriving DecidableEq, Repr, Inhabited

/-- The imports and exports of a module. -/
structure ModuleInfo where
  imports : List ImportEntry
  localExports : List ExportEntry
  starExports : List ExportEntry
  deriving DecidableEq, Repr, Inhabited

namespace ImportEntry

/-- Does the entry bind the namespace of a module? -/
def isNamespace (entry : ImportEntry) : Bool := entry.importName == starName

/-- Does the entry bind the default export of a module? -/
def isDefault (entry : ImportEntry) : Bool := entry.importName == defaultName

/-- The name bound by the entry, which is the imported one unless another is given. -/
def boundName (entry : ImportEntry) : String := entry.localName.getD entry.importName

end ImportEntry

/-- Is the entry the default export? -/
def ExportEntry.isDefault (entry : ExportEntry) : Bool := entry.exportName == some defaultName

/-- The first entry that exports the local binding with the given name. -/
def ModuleInfo.localExport (info : ModuleInfo) (name : String) : Option ExportEntry :=
  info.localExports.find? (·.localName == some name)

/-- Whether a binding is exported, and whether as the default export. -/
structure ExportStatus where
  isExported : Bool
  isDefault : Bool
  deriving DecidableEq, Repr, Inhabited

namespace ExportStatus

/-- The status of a binding that is not exported. -/
def hidden : ExportStatus := ⟨false, false⟩

/-- The status of a binding by its name. Without module metadata nothing is exported. -/
def of (info : Option ModuleInfo) (name : String) : ExportStatus :=
  match info.bind (·.localExport name) with
  | some entry => ⟨true, entry.isDefault⟩
  | none => hidden

end ExportStatus

end Concretion
