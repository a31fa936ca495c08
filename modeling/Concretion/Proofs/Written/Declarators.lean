import Concretion.Proofs.Written.Keywords
import Concretion.Proofs.Written.Recovered
import Concretion.Recovery.Rule.Binding

/-!
# Written declarations

A statement of variables as it is written down: a keyword, and the declarators behind it with commas
between them.

- `Declarator`, `Further`, `VariableStatement`: the statement and its parts, with their text.
- `Declaration`: a declarator at its place, with its binding and its node.
- `Group`: the declarators under one keyword, and their node.
- `VariableStatement.groups`: what becomes of the declarators of a statement. A declarator goes on
  with the group before it, unless `Further.isTaken`: a keyword is seen right in front of it.
- `VariableStatement.whole`: all declarators under the keyword of the statement.

Nothing here searches a text.
-/

namespace Concretion

namespace Written

open Text Mark

/-! ## Statements -/

/-- A name, with a value behind an equals sign or without one. -/
inductive Declarator where
  | bare (name : Name)
  | valued (name : Name) (before after : Gap) (value : Phrase)

/-- A declarator behind a comma. -/
structure Further where
  before : Gap
  after : Gap
  declarator : Declarator

/-- A statement of variables. -/
structure VariableStatement where
  /-- If the statement is exported, the gap behind the keyword that says so. -/
  exported : Option Gap
  kind : BindingKind
  gap : Gap
  first : Declarator
  rest : List Further

namespace Declarator

def name : Declarator → Name
  | bare name | valued name .. => name

/-- What stands between the name and the value. -/
def joint : Declarator → List Mark
  | bare _ => []
  | valued _ before after _ => spread before ++ (spell ['='] ++ spread after)

/-- What stands behind the name. -/
def behindName : Declarator → List Mark
  | bare _ => []
  | valued _ before after value => (spread before ++ (spell ['='] ++ spread after)) ++ value.marks

/-- Up to the last token, but for the parentheses around the value. -/
def body : Declarator → List Mark
  | bare name => spell name.chars
  | valued name before after value =>
    spell name.chars ++ ((spread before ++ (spell ['='] ++ spread after)) ++
      (value.lead ++ value.body))

/-- The closing parentheses around the value. -/
def tail : Declarator → List Mark
  | bare _ => []
  | valued _ _ _ value => value.tail

variable (declarator : Declarator)

def marks : List Mark := declarator.body ++ declarator.tail

/-- All operators of the value that are words are kept apart from other words. -/
def isApart : Declarator → Bool
  | bare _ => true
  | valued _ _ _ value => value.isApart

end Declarator

namespace Further

/-- The comma, with what is around it. -/
def joint (next : Further) : List Mark := spread next.before ++ (spell [','] ++ spread next.after)

def marks (next : Further) : List Mark := next.joint ++ next.declarator.marks

/-- Is a keyword seen right in front of the declarator? It is if nothing but a comma separates the
declarator from it. -/
def isTaken (word : List Char) (front : List Mark) (next : Further) : Bool :=
  next.before.isEmpty && next.after.isEmpty && endsInWord word front

end Further

namespace VariableStatement

variable (statement : VariableStatement)

/-- The keyword of the statement. -/
def word : List Char := statement.kind.keyword.toList

/-- What stands in front of the keyword. -/
def lead : List Mark := statement.exported.elim [] fun gap => spell "export".toList ++ spread gap

/-- From the keyword up to the first comma. -/
def head : List Mark := spell statement.word ++ (spread statement.gap ++ statement.first.marks)

def marks : List Mark := statement.lead ++ (statement.head ++ statement.rest.flatMap Further.marks)

/-- The keywords are kept apart from other words, and so are operators that are words. -/
def isApart : Bool :=
  (text (spread statement.gap ++ statement.first.marks)).head?.any (!isWordChar ·) &&
    (statement.exported.all fun gap => (text (spread gap)).head?.any (!isWordChar ·) &&
      (text (spread gap)).getLast?.any (!isWordChar ·)) &&
    statement.first.isApart && statement.rest.all (·.declarator.isApart)

end VariableStatement

/-! ## Declarators at their places -/

/-- A declarator that is written from the given offset on. -/
structure Declaration where
  declarator : Declarator
  offset : Nat

namespace Declaration

variable (declaration : Declaration)

/-- Where the body of the declarator is. -/
def range : Range :=
  ⟨declaration.offset, declaration.offset + size declaration.declarator.body⟩

/-- Where the value is written. -/
def valueOffset : Nat :=
  declaration.offset + width declaration.declarator.name.chars + size declaration.declarator.joint

/-- The binding that a parser makes of the declarator. -/
def binding (kind : BindingKind) : Binding where
  range := declaration.range
  name := ⟨⟨declaration.offset, declaration.offset + width declaration.declarator.name.chars⟩,
    declaration.declarator.name.text, false, false⟩
  init := match declaration.declarator with
    | .bare _ => none
    | .valued _ _ _ value => some (value.expr declaration.valueOffset)
  kind := kind
  isFunctionDeclaration := false

/-- The node of the declarator. -/
def node : Node :=
  let name := declaration.declarator.name.node declaration.offset
  match declaration.declarator with
  | .bare _ => .branch (.declaration none) declaration.range.span
      [name, .empty declaration.range.span.last]
  | .valued _ before _ value =>
    let equal := declaration.offset + width declaration.declarator.name.chars + size (spread before)
    .branch (.declaration (some (Token.equal.symbolAt equal))) declaration.range.span
      [name, value.node declaration.valueOffset]

end Declaration

/-! ## Groups -/

/-- Declarators under one keyword. -/
structure Group where
  /-- Where the keyword of an export is, if there is one. -/
  exported : Option Nat
  keyword : Nat
  first : Declaration
  more : List Declaration

namespace Group

variable (source : Source) (kind : BindingKind) (group : Group)

def add (declaration : Declaration) : Group :=
  { group with more := group.more ++ [declaration] }

/-- The last declarator. -/
def last : Declaration := group.more.getLast?.getD group.first

/-- Where the last declarator ends. -/
def finish : Nat := group.last.range.finish

/-- The node of the declarators. -/
def variableNode : Node where
  kind := .var ((Token.keyword kind.keyword).symbolAt group.keyword)
  span := Range.span ⟨group.keyword, group.finish⟩
  children := (group.first :: group.more).map Declaration.node
  ownsSemicolon := source.endsWithSemicolon group.finish

/-- The node of the group, which is an export statement if there is a keyword for it. The semicolon
belongs to the outer one. -/
def node : Node :=
  match group.exported with
  | none => group.variableNode source kind
  | some offset =>
    { kind := .exportStatement (some ((Token.keyword "export").symbolAt offset)) false none
      span := Range.span ⟨offset, group.finish⟩
      children := [{ group.variableNode source kind with ownsSemicolon := false }]
      ownsSemicolon := source.endsWithSemicolon group.finish }

end Group

/-- The declarations of further declarators, which are written from the given offset on. -/
def declarations (offset : Nat) : List Further → List Declaration
  | [] => []
  | next :: rest =>
    ⟨next.declarator, offset + size next.joint⟩ :: declarations (offset + size next.marks) rest

/-- Is a keyword seen right in front of one of the declarators? What is in front of the first one
is given. -/
def anyTaken (word : List Char) (front : List Mark) : List Further → Bool
  | [] => false
  | next :: rest => next.isTaken word front || anyTaken word (front ++ next.marks) rest

/-- The groups of further declarators, of which the first one is behind a group. From the given
offset on stands what is in front of it. -/
def groups (word : List Char) (offset : Nat) (front : List Mark) (group : Group) :
    List Further → List Group
  | [] => [group]
  | next :: rest =>
    let place := offset + size front + size next.joint
    let declaration : Declaration := ⟨next.declarator, place⟩
    if next.isTaken word front then
      group :: groups word offset (front ++ next.marks)
        ⟨none, place - (width word + 1), declaration, []⟩ rest
    else groups word offset (front ++ next.marks) (group.add declaration) rest

namespace VariableStatement

variable (statement : VariableStatement) (offset : Nat)

/-- Where the keyword is. -/
def keyword : Nat := offset + size statement.lead

/-- The first declarator. -/
def opening : Declaration :=
  ⟨statement.first, statement.keyword offset + width statement.word + size (spread statement.gap)⟩

/-- All declarators. -/
def declarations : List Declaration :=
  statement.opening offset ::
    Written.declarations (statement.keyword offset + size statement.head) statement.rest

/-- The bindings that a parser makes of the declarators. -/
def bindings : List Binding := (statement.declarations offset).map (·.binding statement.kind)

/-- The first declarator with the keyword of the statement. -/
def group : Group :=
  ⟨statement.exported.map fun _ => offset, statement.keyword offset, statement.opening offset, []⟩

/-- All declarators under the keyword of the statement. -/
def whole : Group :=
  { statement.group offset with
    more := Written.declarations (statement.keyword offset + size statement.head) statement.rest }

/-- What becomes of the declarators. -/
def groups : List Group :=
  Written.groups statement.word (statement.keyword offset) statement.head (statement.group offset)
    statement.rest

/-- Is a keyword seen in front of a declarator that is not the first one? -/
def isBroken : Bool := anyTaken statement.word statement.head statement.rest

/-- The nodes of the statement. -/
def nodes (source : Source) : List Node :=
  (statement.groups offset).map (·.node source statement.kind)

/-- The node of all declarators. -/
def node (source : Source) : Node := (statement.whole offset).node source statement.kind

end VariableStatement

end Written

end Concretion
