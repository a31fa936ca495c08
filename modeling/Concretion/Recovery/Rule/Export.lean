import Concretion.Recovery.Session

/-!
# Exported declarations

The abstract tree has no export statements. A declaration whose name is exported is wrapped in one,
which begins at the keyword in front of the declaration.
-/

namespace Concretion

namespace Rule

open Recover

/-- Wraps a declaration in an export statement. The keyword is looked for between `windowStart` and
the declaration; without it the statement begins with the declaration. The semicolon of the
declaration becomes that of the export statement. -/
def wrapExport (node : Node) (isDefault : Bool) (windowStart : Nat) : Recover Node := do
  let keyword ← findLastWord? "export" "Export" windowStart node.start
  let start := (keyword.map (·.span.start)).getD node.start
  let span ← spanBetween start node.last
  return {
    kind := .exportStatement keyword isDefault none
    span := span
    children := [{ node with ownsSemicolon := false }]
    ownsSemicolon := node.ownsSemicolon }

/-- Wraps a declaration if it is exported. -/
def exportIf (status : ExportStatus) (node : Node) (windowStart : Nat) : Recover Node :=
  if status.isExported then wrapExport node status.isDefault windowStart else pure node

end Rule

end Concretion
