/-!
# The table of names

The texts of symbols repeat a good deal, so each recovery keeps a table of those it has met. A
text that is already in the table is used again.
-/

namespace Concretion

/-- The distinct texts met so far, latest first, and how often a text was used again. -/
structure NameTable where
  texts : List String
  reused : Nat
  deriving DecidableEq, Repr, Inhabited

namespace NameTable

/-- The empty table. -/
def empty : NameTable := ⟨[], 0⟩

/-- Enters a text, unless it is there already. -/
def enter (table : NameTable) (text : String) : NameTable :=
  if table.texts.contains text then { table with reused := table.reused + 1 }
  else { table with texts := text :: table.texts }

/-- The number of distinct texts. -/
def size (table : NameTable) : Nat := table.texts.length

end NameTable

end Concretion
