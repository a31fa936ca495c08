import Concretion.Recovery.Rule.ModuleItems
import Concretion.Recovery.Tree

/-!
# Recovery of a program

- `Program.recover`: the statements of a program, and those known from its metadata.
- `Session.finish`: the root of the finished tree. Nothing may be left open or deferred.
- `Program.concretise`: the concrete tree of a program, with the tokens that could not be located
  and a journal of the recovery.
-/

namespace Concretion

/-- A concrete tree with the tokens that could not be located. -/
structure Concrete where
  root : Node
  warnings : List Missing
  deriving Repr, Inhabited

/-- What a recovery comes to: a tree or a failure, and the journal in either case. -/
structure Outcome where
  result : Except Failure Concrete
  journal : Array Entry
  deriving Inhabited

/-- Recovers the statements of a program into the root. -/
def Program.recover (program : Program) : Recover Unit := do
  Recover.note (.program program.uri)
  program.body.recover
  if let some info := program.info then Rule.moduleItems info

/-- The finished tree of a session. -/
def Session.finish : Recover Concrete := do
  let session ← get
  if !session.shelf.isEmpty then
    throw (.shape "ParseRoot" (.neverAttached session.shelf.count) none)
  Recover.note (.interned session.names.size session.names.reused)
  let root ← Recover.orFail session.stack.finish
  return ⟨root, session.warnings.toList⟩

/-- The finished tree, checked if asked for. -/
def Concrete.verified (concrete : Concrete) (verify : Bool) : Recover Unit := do
  if verify then
    match concrete.root.check with
    | .ok () => pure ()
    | .error violation =>
      Recover.note (.invalid concrete.root)
      throw (.shape "ParseRoot" (.invalidTree violation) none)

/-- Recovers a program and finishes its tree. -/
def Program.build (program : Program) (verify : Bool) : Recover Concrete := do
  program.recover
  let concrete ← Session.finish
  concrete.verified verify
  if !concrete.warnings.isEmpty then
    Recover.note (.unlocated concrete.warnings.length program.uri)
  Recover.note (.finished concrete.root)
  return concrete

namespace Scope

/-- What a recovery has to go by: a text, the metadata of a module, and settings. -/
def of (text : String) (info : Option ModuleInfo) (settings : Settings) : Scope :=
  ⟨.ofString text settings.mode, info, settings.strict⟩

end Scope

/-- The concrete tree of a program that was parsed from the given text. -/
def Program.concretise (program : Program) (text : String) (settings : Settings) : Outcome :=
  let scope := Scope.of text program.info settings
  let session := Session.start scope.source
  let session := session.note (.started program.uri scope.source.size)
  let session := session.note (.scanned scope.source.trivia.size scope.source.size)
  let (result, session) := (program.build settings.verify).run scope |>.run session
  ⟨result, session.journal⟩

end Concretion
