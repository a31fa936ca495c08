import Concretion.Abstract.Module
import Concretion.Abstract.Operator
import Concretion.Span

/-!
# Abstract trees

The abstract tree of a program as a parser hands it over. Each node knows the half-open range of
text it was parsed from; punctuation and keywords are left out. Some statements are not in the text
at all: declarations of a loop header stand in a synthetic block in front of the loop, default
values of parameters are assignments in a parameter block, and the expression body of an arrow
function is a generated return.

- `Expr`, `Stmt`, `Block` and their parts are defined together.
- `Expr.operator?`: the operator of an expression, if it applies one.
- `Member.keyName?`, `Member.isShorthand`: how an object member is written.
- `ClassDef.isImplicitConstructor`: whether a constructor was made up for a class without one.
- `Program`: a whole program with its metadata.
-/

namespace Concretion

/-- Where the statements of a block come from. -/
inductive BlockKind where
  /-- A block written with braces. -/
  | braced
  /-- A block without braces in the text: the body of a program or of a label, or declarations
  moved out of the header of a loop. -/
  | synthetic
  /-- The body of a function with default parameters. Its last statement is the body as it is
  written, the ones before initialise the parameters. -/
  | parameter
  deriving DecidableEq, Repr, Inhabited

/-- How a binding is declared. -/
inductive BindingKind where
  | var
  | let
  | const
  deriving DecidableEq, Repr, Inhabited

/-- The keyword that declares a binding. -/
def BindingKind.keyword : BindingKind → String
  | .var => "var"
  | .let => "let"
  | .const => "const"

/-- What a `for` loop ranges over. -/
inductive LoopKind where
  /-- The three clauses of a counting loop. -/
  | classic
  /-- The keys of an object. -/
  | keys
  /-- The values of an iterable. -/
  | values
  deriving DecidableEq, Repr, Inhabited

/-- Where a jump leads. -/
inductive JumpKind where
  | break
  | continue
  deriving DecidableEq, Repr, Inhabited

/-- The keyword of a jump. -/
def JumpKind.keyword : JumpKind → String
  | .break => "break"
  | .continue => "continue"

/-- What a function was written as. -/
inductive FunctionKind where
  | normal
  | arrow
  | generator
  | getter
  | setter
  | method
  deriving DecidableEq, Repr, Inhabited

/-- An identifier. -/
structure Ident where
  range : Range
  name : String
  /-- A parameter that collects the remaining arguments. -/
  isRest : Bool
  /-- A parameter with a default value. -/
  isDefault : Bool
  deriving DecidableEq, Repr, Inhabited

/-- The literals without parts. -/
inductive Literal where
  | number
  /-- The value is given without quotes. The range of the literal leaves the quotes out and
  finishes at the closing one. -/
  | string (value : String)
  | boolean (value : Bool)
  | null
  | regex
  deriving DecidableEq, Repr, Inhabited

mutual

/-- An expression. -/
inductive Expr where
  | ident (name : Ident)
  | literal (range : Range) (value : Literal)
  /-- An array literal; an elided element is `none`. -/
  | array (range : Range) (elements : List (Option Expr))
  | unary (range : Range) (operator : Operator) (operand : Expr)
  | binary (range : Range) (operator : Operator) (left right : Expr)
  | conditional (range : Range) (test consequent alternate : Expr)
  | call (range : Range) (callee : Expr) (arguments : List Expr)
  /-- Access to a property by a name, of which no position is known. -/
  | access (range : Range) (base : Expr) (property : String)
  | index (range : Range) (base index : Expr)
  | object (range : Range) (members : List Member)
  | functionDef (definition : FunctionDef)
  | classDef (definition : ClassDef)

/-- A member of an object literal or of a class body. -/
structure Member where
  range : Range
  key : Expr
  /-- Absent when the member has accessors. -/
  value : Option Expr
  getter : Option FunctionDef
  setter : Option FunctionDef
  isStatic : Bool
  isComputed : Bool

/-- A function. -/
structure FunctionDef where
  range : Range
  /-- The name. For an anonymous function that is no arrow function its range is that of the
  keyword. -/
  name : Ident
  kind : FunctionKind
  parameters : List Ident
  body : Block
  isAnonymous : Bool
  isMethod : Bool
  /-- Set for function declarations. -/
  isDeclared : Bool
  /-- Set when the body calls the constructor of the superclass. -/
  hasDirectSuper : Bool

/-- A class. -/
structure ClassDef where
  range : Range
  name : Option Ident
  heritage : Option Expr
  constructor? : Option Member
  elements : List Member

/-- A sequence of statements. -/
structure Block where
  range : Range
  kind : BlockKind
  statements : List Stmt

/-- A binding. Declarations of functions and classes are bindings too, with the function or the
class as their value. -/
structure Binding where
  /-- Begins at the bound name and not at the keyword. -/
  range : Range
  name : Ident
  init : Option Expr
  kind : BindingKind
  isFunctionDeclaration : Bool

/-- A `for` loop. -/
structure ForLoop where
  range : Range
  kind : LoopKind
  init : Option Expr
  test : Option Expr
  /-- The update of a counting loop, or the object that the other loops range over. -/
  update : Option Expr
  body : Block

/-- A clause of a `switch` statement. -/
structure SwitchCase where
  range : Range
  /-- Absent for the default clause. -/
  test : Option Expr
  statements : List Stmt

/-- A `catch` clause. -/
structure CatchClause where
  range : Range
  exception : Ident
  body : Block

/-- A statement. -/
inductive Stmt where
  | binding (definition : Binding)
  | expression (range : Range) (expression : Expr)
  | block (block : Block)
  | empty (range : Range)
  | ifElse (range : Range) (test : Expr) (pass : Block) (fail : Option Block)
  | forLoop (loop : ForLoop)
  /-- A `while` loop, or a `do` loop, whose test follows the body. -/
  | whileLoop (range : Range) (isDo : Bool) (test : Expr) (body : Block)
  | switch (range : Range) (subject : Expr) (cases : List SwitchCase)
  | tryCatch (range : Range) (body : Block) (catches : List CatchClause)
      (finalizer : Option Block)
  | throwValue (range : Range) (value : Expr)
  /-- A return; it is generated when it is the expression body of an arrow function. -/
  | returnValue (range : Range) (value : Option Expr) (isGenerated : Bool)
  | jump (range : Range) (kind : JumpKind) (label : Option String)
  | labelled (range : Range) (label : String) (body : Block)
  | withScope (range : Range) (subject : Expr) (body : Block)

end

/-- A parsed program. -/
structure Program where
  /-- The address under which the text is known. -/
  uri : String
  body : Block
  /-- Imports and exports, of modules only. -/
  info : Option ModuleInfo

namespace Expr

/-- The range of an expression. -/
def range : Expr → Range
  | ident name => name.range
  | literal range _ | array range _ | unary range _ _ | binary range _ _ _
  | conditional range _ _ _ | call range _ _ | access range _ _ | index range _ _
  | object range _ => range
  | functionDef definition => definition.range
  | classDef definition => definition.range

/-- The operator of an expression, if it applies one. -/
def operator? : Expr → Option Operator
  | unary _ operator _ | binary _ operator _ _ => some operator
  | conditional .. => some .conditional
  | _ => none

end Expr

namespace Stmt

/-- The range of a statement. -/
def range : Stmt → Range
  | binding definition => definition.range
  | block body => body.range
  | forLoop loop => loop.range
  | expression range _ | empty range | ifElse range _ _ _ | whileLoop range _ _ _
  | switch range _ _ | tryCatch range _ _ _ | throwValue range _ | returnValue range _ _
  | jump range _ _ | labelled range _ _ | withScope range _ _ => range

end Stmt

namespace Block

/-- Has the block no braces in the text? -/
def isSynthetic (block : Block) : Bool := block.kind == .synthetic

/-- Is the block the body of a function with default parameters? -/
def isParameterBlock (block : Block) : Bool := block.kind == .parameter

/-- The last statement. -/
def lastStatement? (block : Block) : Option Stmt := block.statements.getLast?

end Block

/-- Does a loop range over keys or values? -/
def ForLoop.isForInOrOf (loop : ForLoop) : Bool := loop.kind != .classic

/-- Is the binding a class declaration, and not a variable with a class as its value? -/
def Binding.declaresClass (binding : Binding) : Bool :=
  match binding.init with
  | some (.classDef definition) =>
    binding.name.name == defaultBindingName ||
      definition.name.any fun name => name.range.start == binding.name.range.start
  | _ => false

namespace Member

/-- The name of a key that is not computed: an identifier or a string. -/
def keyName? (member : Member) : Option String :=
  if member.isComputed then none
  else
    match member.key with
    | .ident name => some name.name
    | .literal _ (.string value) => some value
    | _ => none

/-- Is the key also the value, as in an object literal of one word? -/
def isShorthand (member : Member) : Bool :=
  member.value.any fun value => value.range == member.key.range

end Member

/-- Is the member the default constructor made up for a class that declares none? It then goes by
the name of the class, and has the parameters and the body of a default constructor. -/
def ClassDef.isImplicitConstructor (definition : ClassDef) (member : Member) : Bool :=
  match member.value with
  | some (.functionDef function) =>
    let expected := (definition.name.map (·.name)).getD "constructor"
    let count := function.body.statements.length
    member.keyName? == some expected &&
      match definition.heritage with
      | none => function.parameters.isEmpty && count == 0
      | some _ =>
        match function.parameters with
        | [parameter] => parameter.isRest && function.hasDirectSuper && count == 1
        | _ => false
  | _ => false

end Concretion
