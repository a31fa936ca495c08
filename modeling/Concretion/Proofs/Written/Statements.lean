import Concretion.Abstract.Module
import Concretion.Proofs.Written.Seek

/-!
# Written modules

Import statements, and statements that export everything from another module, as they are written
down. All that is known of them is read off their shape: the text, the metadata a parser makes of
them, and the concrete tree to be recovered.

- `Specifier`: what is imported under which name. `Clause` has all that one statement imports.
- `Statement`, `Manuscript`: the statements of a module, with all that stands between them.
- `Manuscript.Describes`: the metadata of the module.
- `Manuscript.isApart`, `Manuscript.isUnambiguous`: no word is taken for a part of another one, and
  no name for the one that the binding in front of it repeats.
- `Manuscript.isUntangled`: no statement names a module that one of the other kind names between it
  and the statement of its own kind before it.

Nothing here searches a text.
-/

namespace Concretion

namespace Written

open Text Chunk

/-! ## Words -/

/-- The words of the statements themselves. -/
def Word.as : Word := .spelled ['a', 's'] rfl

def Word.from : Word := .spelled ['f', 'r', 'o', 'm'] rfl

def Word.import : Word := .spelled ['i', 'm', 'p', 'o', 'r', 't'] rfl

def Word.export : Word := .spelled ['e', 'x', 'p', 'o', 'r', 't'] rfl

/-- The word that statements of a kind start with. -/
def Word.keyword (isImport : Bool) : Word := if isImport then .import else .export

/-- The name under which a module exports something. -/
structure ExportedName extends Word where
  isFree : chars ≠ Word.import.chars ∧ chars ≠ Word.export.chars

/-- The name to which an import is bound. -/
structure Binder extends ExportedName where
  isBindable : chars ≠ Word.as.chars ∧ chars ≠ defaultName.toList

/-- White space and comments that stand between two words. -/
structure Space where
  gap : Gap
  nonempty : gap ≠ []

/-- A word of letters is kept apart from other words by the characters beside it. -/
def Word.isApart (word : Word) (front rest : List Chunk) : Bool :=
  !isAlphabetic word.text || (endsApart front && startsApart rest)

/-! ## Bindings -/

/-- What is imported, and the name it is bound to. -/
inductive Specifier where
  /-- The default export, as in `import a from`. -/
  | standard (binder : Binder)
  /-- All exports, as in `* as a`. -/
  | star (beforeAs : Gap) (afterAs : Space) (binder : Binder)
  /-- An export under its own name, as in `{ a }`. -/
  | plain (binder : Binder)
  /-- An export under another name, as in `{ a as b }`. -/
  | renamed (name : ExportedName) (beforeAs afterAs : Space) (binder : Binder)

namespace Specifier

/-- What stands between the name of the export and that of the binding. -/
def link (beforeAs : Gap) (afterAs : Space) : List Chunk :=
  spread beforeAs ++ .word .as :: spread afterAs.gap

/-- How the specifier is written. -/
def chunks : Specifier → List Chunk
  | standard binder | plain binder => [.word binder.toWord]
  | star beforeAs afterAs binder => .sign .star :: (link beforeAs afterAs ++ [.word binder.toWord])
  | renamed name beforeAs afterAs binder =>
    .word name.toWord :: (link beforeAs.gap afterAs ++ [.word binder.toWord])

/-- The name of the export. -/
def importName : Specifier → String
  | standard _ => defaultName
  | star .. => starName
  | plain binder => binder.text
  | renamed name .. => name.text

/-- The name of the binding. -/
def boundName : Specifier → String
  | standard binder | star _ _ binder | plain binder | renamed _ _ _ binder => binder.text

/-- The name that is searched for first, if it is not the star. -/
def sought : Specifier → Option Word
  | standard binder | plain binder => some binder.toWord
  | star .. => none
  | renamed name _ _ binder =>
    some (if name.text = defaultName then binder.toWord else name.toWord)

/-- The second name of an export that is bound under its own name, with what stands in front of it.
It is not searched for. -/
def leftover : Specifier → List Chunk
  | standard _ | star .. | plain _ => []
  | renamed name beforeAs afterAs binder =>
    if name.text ≠ defaultName ∧ name.text = binder.text then
      link beforeAs.gap afterAs ++ [.word binder.toWord]
    else []

/-- The names that are searched for are kept apart from what is beside them. -/
def isApart (front rest : List Chunk) : Specifier → Bool
  | standard binder | plain binder => binder.isApart front rest
  | star beforeAs afterAs binder => binder.isApart (link beforeAs afterAs) rest
  | renamed name beforeAs afterAs binder =>
    (decide (name.text = defaultName) || name.isApart front (spread beforeAs.gap)) &&
      (decide (name.text ≠ defaultName ∧ name.text = binder.text) ||
        binder.isApart (spread afterAs.gap) rest)

/-- The name of the next binding is not found in the second name that this one repeats. -/
def isClearOf (specifier next : Specifier) : Bool :=
  specifier.leftover.all fun chunk =>
    match chunk with
    | .word other => next.sought.all (!·.isFoundIn other)
    | _ => true

/-- The node of a specifier that consists of one name. -/
def bare (word : Word) (offset : Nat) : Node :=
  .branch (.importSpecifier none) (Range.span ⟨offset, offset + width word.chars⟩)
    [word.node offset]

/-- The node of the specifier. -/
def node (offset : Nat) : Specifier → Node
  | standard binder | plain binder => bare binder.toWord offset
  | star beforeAs afterAs binder =>
    let inner := offset + 1 + size (link beforeAs afterAs)
    .branch (.importSpecifier (some (Token.star.symbolAt offset)))
      (Range.span ⟨offset, inner + width binder.chars⟩) [binder.node inner]
  | renamed name beforeAs afterAs binder =>
    let inner := offset + width name.chars + size (link beforeAs.gap afterAs)
    if name.text = defaultName then bare binder.toWord inner
    else if name.text = binder.text then bare name.toWord offset
    else
      .branch (.importSpecifier none) (Range.span ⟨offset, inner + width binder.chars⟩)
        [name.node offset, binder.node inner]

end Specifier

/-! ## Clauses -/

/-- What may stand between two bindings. -/
inductive Joint where
  | filler (piece : Filler)
  | comma
  | leftBrace
  | rightBrace

def Joint.chunk : Joint → Chunk
  | filler piece => .filler piece
  | comma => .sign .comma
  | leftBrace => .sign .leftBrace
  | rightBrace => .sign .rightBrace

/-- A binding with what stands behind it. -/
structure Part where
  specifier : Specifier
  behind : List Joint
  nonempty : behind ≠ []

def Part.joints (part : Part) : List Chunk := part.behind.map Joint.chunk

def Part.chunks (part : Part) : List Chunk := part.specifier.chunks ++ part.joints

/-- The bindings of an import statement. Commas and braces are wherever they were put. -/
structure Clause where
  front : List Joint
  parts : List Part
  nonempty : parts ≠ []

namespace Clause

variable (clause : Clause)

def joints : List Chunk := clause.front.map Joint.chunk

def chunks : List Chunk := clause.joints ++ clause.parts.flatMap Part.chunks

/-- The names are kept apart from what is beside them. -/
def arePartsApart (front : List Chunk) : List Part → Bool
  | [] => true
  | part :: rest => part.specifier.isApart front part.joints && arePartsApart part.joints rest

/-- No binding repeats a name that the next one is searched by. -/
def arePartsClear : List Part → Bool
  | part :: next :: rest =>
    part.specifier.isClearOf next.specifier && arePartsClear (next :: rest)
  | _ => true

/-- The nodes of bindings that start at the given offset. -/
def nodes (offset : Nat) : List Part → List Node
  | [] => []
  | part :: rest => part.specifier.node offset :: nodes (offset + size part.chunks) rest

end Clause

/-! ## Statements -/

/-- What stands between the keyword of a statement and the name of the module. -/
inductive Body where
  | imports (clause : Clause) (afterFrom : Gap)
  | exports (beforeStar afterStar afterFrom : Gap)

namespace Body

/-- Is the statement an import? -/
def isImport : Body → Bool
  | imports .. => true
  | exports .. => false

def keyword (body : Body) : Word := .keyword body.isImport

def chunks : Body → List Chunk
  | imports clause afterFrom => clause.chunks ++ .word .from :: spread afterFrom
  | exports beforeStar afterStar afterFrom =>
    spread beforeStar ++ .sign .star :: (spread afterStar ++ .word .from :: spread afterFrom)

end Body

/-- A statement with what stands in front of it, up to its semicolon. -/
structure Statement where
  before : Gap
  body : Body
  path : Quoted
  behind : Gap

namespace Statement

variable (statement : Statement)

/-- The statement from its keyword to the name of the module. -/
def core : List Chunk :=
  .word statement.body.keyword :: (statement.body.chunks ++ [.quoted statement.path])

def chunks : List Chunk :=
  spread statement.before ++ (statement.core ++ (spread statement.behind ++ [.sign .semicolon]))

/-- The name of the module without quotes. -/
def request : String := statement.path.text

/-- The imports of the statement: module, name of the export and name of the binding. -/
def importKeys : List (String × String × String) :=
  match statement.body with
  | .imports clause _ => clause.parts.map fun part =>
    (statement.request, part.specifier.importName, part.specifier.boundName)
  | .exports .. => []

/-- The module from which the statement exports everything. -/
def exportKey? : Option String :=
  if statement.body.isImport then none else some statement.request

/-- All words that are searched for are kept apart from what is beside them. -/
def isApart : Bool :=
  !(text (spread statement.before)).getLast?.any isWordChar && startsApart statement.body.chunks &&
    match statement.body with
    | .imports clause _ => Clause.arePartsApart clause.joints clause.parts
    | .exports .. => true

/-- No binding repeats a name that the next one is searched by. -/
def isUnambiguous : Bool :=
  match statement.body with
  | .imports clause _ => Clause.arePartsClear clause.parts
  | .exports .. => true

/-- The node of the statement, whose keyword has the given offset in a text. -/
def node (source : Source) (offset : Nat) : Node :=
  let path : Range :=
    ⟨offset + size (.word statement.body.keyword :: statement.body.chunks),
      offset + size statement.core⟩
  let keyword := (Token.keyword statement.body.keyword.text).symbolAt offset
  let pathSymbol : Symbol := ⟨.string, path.span, String.ofList statement.path.chars⟩
  { kind := match statement.body with
      | .imports .. => .importStatement keyword pathSymbol
      | .exports .. => .exportStatement (some keyword) false (some pathSymbol)
    span := Range.span ⟨offset, path.finish⟩
    children := match statement.body with
      | .imports clause _ =>
          Clause.nodes (offset + size (.word .import :: clause.joints)) clause.parts
      | .exports .. => []
    ownsSemicolon := source.endsWithSemicolon path.finish }

/-- The nodes of statements that start at the given offset. -/
def nodes (source : Source) (offset : Nat) : List Statement → List Node
  | [] => []
  | statement :: rest =>
    statement.node source (offset + size (spread statement.before)) ::
      nodes source (offset + size statement.chunks) rest

/-- No statement of the kind names a module that is named by a statement of the other kind between
it and the statement of its own kind before it. `pending` are the modules named since then. -/
def areUntangled (isImport : Bool) (pending : List String) : List Statement → Bool
  | [] => true
  | statement :: rest =>
    if statement.body.isImport = isImport then
      !pending.contains statement.request && areUntangled isImport [] rest
    else areUntangled isImport (statement.request :: pending) rest

end Statement

/-! ## Modules -/

/-- A module without statements of other kinds. -/
structure Manuscript where
  statements : List Statement
  after : Gap

namespace Manuscript

variable (manuscript : Manuscript)

def chunks : List Chunk := manuscript.statements.flatMap Statement.chunks ++ spread manuscript.after

def text : String := String.ofList (Chunk.text manuscript.chunks)

/-- The text, prepared for searches that skip comments and literals. -/
def source : Source := .ofString manuscript.text .skipTrivia

/-- The metadata have the imports and the star exports of the module in their order. -/
def Describes (info : ModuleInfo) : Prop :=
  info.imports.map (fun entry => (entry.request, entry.importName, entry.boundName)) =
      manuscript.statements.flatMap Statement.importKeys ∧
    info.starExports.map (·.request) =
      (manuscript.statements.filterMap Statement.exportKey?).map some

/-- All words that are searched for are kept apart from what is beside them. -/
def isApart : Bool := manuscript.statements.all Statement.isApart

/-- No binding repeats a name that the next one is searched by. -/
def isUnambiguous : Bool := manuscript.statements.all Statement.isUnambiguous

/-- Imports that follow each other are from different modules. -/
def alternates : Prop :=
  (manuscript.statements.filter (·.body.isImport)).IsChain fun a b => a.request ≠ b.request

/-- No statement names a module that one of the other kind names between it and the statement of its
own kind before it. -/
def isUntangled : Bool :=
  Statement.areUntangled true [] manuscript.statements &&
    Statement.areUntangled false [] manuscript.statements

/-- The whole concrete tree. -/
def tree : Node :=
  .branch .root (Range.span ⟨0, size manuscript.chunks⟩)
    (Statement.nodes manuscript.source 0 manuscript.statements)

end Manuscript

end Written

end Concretion
