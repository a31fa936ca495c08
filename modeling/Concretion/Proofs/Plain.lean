import Concretion.Proofs.Declared
import Concretion.Proofs.Header

/-!
# The leaves of abstract trees

Identifiers and literals without parts are the leaves of an abstract tree. They are listed in the
order of the text, which is not everywhere that in which the tree holds them.

- `Leaf`: an identifier or a literal, at the range that is known of it.
- `Expr.leaves`, `Stmt.leaves`, `Block.leaves`: the leaves of a part.
- `Expr.isPlain`, `Stmt.isPlain`, `Block.isPlain`: the parts that hold no objects and no classes, in
  which parameters are just names, and functions are declared by bindings that say so.
-/

namespace Concretion

/-- A leaf of an abstract tree. -/
inductive Leaf where
  | name (range : Range) (text : String)
  | literal (range : Range) (value : Literal)
  deriving DecidableEq, Repr

/-- An identifier as a leaf. -/
def Ident.leaf (name : Ident) : Leaf := .name name.range name.name

/-- A label as a leaf. It stands at the start of its statement. -/
def Leaf.label (start : Nat) (label : String) : Leaf :=
  .name ⟨start, start + label.utf8ByteSize⟩ label

/-- The name of a property as a leaf. It ends the expression, and starts behind the base. -/
def Leaf.property (baseEnd finish : Nat) (property : String) : Leaf :=
  .name ⟨max (finish - property.utf8ByteSize) baseEnd, finish⟩ property

/-! ## Leaves in the order of the text -/

mutual

/-- The leaves of an expression. -/
def Expr.leaves (expr : Expr) : List Leaf :=
  match expr with
  | .ident name => [name.leaf]
  | .literal range value => [.literal range value]
  | .array _ elements => elementLeaves elements
  | .unary _ _ operand => operand.leaves
  | .binary _ _ left right => left.leaves ++ right.leaves
  | .conditional _ test consequent alternate =>
    test.leaves ++ (consequent.leaves ++ alternate.leaves)
  | .call _ callee arguments => callee.leaves ++ argumentLeaves arguments
  | .access range base property =>
    base.leaves ++ [.property base.range.finish range.finish property]
  | .index _ base index => base.leaves ++ index.leaves
  | .functionDef definition => definition.leaves
  | .object .. | .classDef _ => []
termination_by structural expr

/-- The leaves of the elements of an array literal. -/
def elementLeaves (elements : List (Option Expr)) : List Leaf :=
  match elements with
  | [] => []
  | none :: rest => elementLeaves rest
  | some element :: rest => element.leaves ++ elementLeaves rest
termination_by structural elements

/-- The leaves of the arguments of a call. -/
def argumentLeaves (arguments : List Expr) : List Leaf :=
  match arguments with
  | [] => []
  | argument :: rest => argument.leaves ++ argumentLeaves rest
termination_by structural arguments

/-- The leaves of an optional expression. -/
def optionalLeaves (expr : Option Expr) : List Leaf :=
  match expr with
  | none => []
  | some expr => expr.leaves
termination_by structural expr

/-- The leaves of a function: its name if it is written with one, its parameters, and its body. -/
def FunctionDef.leaves (definition : FunctionDef) : List Leaf :=
  match definition with
  | ⟨_, name, kind, parameters, body, isAnonymous, _, _, _⟩ =>
    (if kind == .arrow || isAnonymous then [] else [name.leaf]) ++
      (parameters.map Ident.leaf ++ body.leaves)
termination_by structural definition

/-- The leaves of a block. -/
def Block.leaves (block : Block) : List Leaf :=
  match block with
  | ⟨_, _, statements⟩ => statementLeaves statements
termination_by structural block

/-- The leaves of statements. -/
def statementLeaves (statements : List Stmt) : List Leaf :=
  match statements with
  | [] => []
  | statement :: rest => statement.leaves ++ statementLeaves rest
termination_by structural statements

/-- The leaves of an optional block. -/
def blockLeaves (block : Option Block) : List Leaf :=
  match block with
  | none => []
  | some block => block.leaves
termination_by structural block

/-- The leaves of a statement. -/
def Stmt.leaves (statement : Stmt) : List Leaf :=
  match statement with
  | .binding definition => definition.leaves
  | .expression _ expr => expr.leaves
  | .block body => body.leaves
  | .empty _ | .jump .. => []
  | .ifElse _ test pass fail => test.leaves ++ (pass.leaves ++ blockLeaves fail)
  | .forLoop loop => loop.leaves
  | .whileLoop _ isDo test body =>
    if isDo then body.leaves ++ test.leaves else test.leaves ++ body.leaves
  | .switch _ subject cases => subject.leaves ++ caseLeaves cases
  | .tryCatch _ body catches finalizer =>
    body.leaves ++ (catchLeaves catches ++ blockLeaves finalizer)
  | .throwValue _ value => value.leaves
  | .returnValue _ value _ => optionalLeaves value
  | .labelled range label body => .label range.start label :: body.leaves
  | .withScope _ subject body => subject.leaves ++ body.leaves
termination_by structural statement

/-- The leaves of a binding: its name and its value. The declaration of a function has the name of
the function only. -/
def Binding.leaves (binding : Binding) : List Leaf :=
  match binding with
  | ⟨_, _, some (.functionDef definition), _, true⟩ => definition.leaves
  | ⟨_, name, init, _, _⟩ => name.leaf :: optionalLeaves init
termination_by structural binding

/-- The leaves of a loop, without the declarations in front of it. -/
def ForLoop.leaves (loop : ForLoop) : List Leaf :=
  match loop with
  | ⟨_, _, init, test, update, body⟩ =>
    optionalLeaves init ++ (optionalLeaves test ++ (optionalLeaves update ++ body.leaves))
termination_by structural loop

/-- The leaves of the clauses of a `switch` statement. -/
def caseLeaves (cases : List SwitchCase) : List Leaf :=
  match cases with
  | [] => []
  | clause :: rest => clause.leaves ++ caseLeaves rest
termination_by structural cases

/-- The leaves of a clause of a `switch` statement. -/
def SwitchCase.leaves (clause : SwitchCase) : List Leaf :=
  match clause with
  | ⟨_, test, statements⟩ => optionalLeaves test ++ statementLeaves statements
termination_by structural clause

/-- The leaves of `catch` clauses. -/
def catchLeaves (catches : List CatchClause) : List Leaf :=
  match catches with
  | [] => []
  | ⟨_, exception, body⟩ :: rest => exception.leaf :: (body.leaves ++ catchLeaves rest)
termination_by structural catches

end

/-! ## Plain trees -/

/-- Is the parameter just a name? -/
def Ident.isPlain (parameter : Ident) : Bool := !parameter.isRest && !parameter.isDefault

/-- Has the loop at the end of a block without braces one initialisation only? -/
def isHeaded (kind : BlockKind) (statements : List Stmt) : Bool :=
  kind != .synthetic || (closingLoop? statements).all fun loop =>
    (loop.header statements).isEmpty || loop.init.isNone

mutual

/-- Is the expression plain? -/
def Expr.isPlain (expr : Expr) : Bool :=
  match expr with
  | .ident _ | .literal .. => true
  | .array _ elements => elementsPlain elements
  | .unary _ _ operand => operand.isPlain
  | .binary _ _ left right => left.isPlain && right.isPlain
  | .conditional _ test consequent alternate =>
    test.isPlain && (consequent.isPlain && alternate.isPlain)
  | .call _ callee arguments => callee.isPlain && argumentsPlain arguments
  | .access _ base _ => base.isPlain
  | .index _ base index => base.isPlain && index.isPlain
  | .functionDef definition => !definition.declares && definition.isPlain
  | .object .. | .classDef _ => false
termination_by structural expr

/-- Are the elements of an array literal plain? -/
def elementsPlain (elements : List (Option Expr)) : Bool :=
  match elements with
  | [] => true
  | none :: rest => elementsPlain rest
  | some element :: rest => element.isPlain && elementsPlain rest
termination_by structural elements

/-- Are the arguments of a call plain? -/
def argumentsPlain (arguments : List Expr) : Bool :=
  match arguments with
  | [] => true
  | argument :: rest => argument.isPlain && argumentsPlain rest
termination_by structural arguments

/-- Is an optional expression plain? -/
def optionalPlain (expr : Option Expr) : Bool :=
  match expr with
  | none => true
  | some expr => expr.isPlain
termination_by structural expr

/-- Is the function plain, whether or not it is declared? -/
def FunctionDef.isPlain (definition : FunctionDef) : Bool :=
  match definition with
  | ⟨_, _, _, parameters, body, _, _, _, _⟩ => parameters.all Ident.isPlain && body.isPlain
termination_by structural definition

/-- Is the block plain? -/
def Block.isPlain (block : Block) : Bool :=
  match block with
  | ⟨_, kind, statements⟩ =>
    kind != .parameter && (isHeaded kind statements && statementsPlain statements)
termination_by structural block

/-- Are the statements plain? -/
def statementsPlain (statements : List Stmt) : Bool :=
  match statements with
  | [] => true
  | statement :: rest => statement.isPlain && statementsPlain rest
termination_by structural statements

/-- Is an optional block plain? -/
def blockPlain (block : Option Block) : Bool :=
  match block with
  | none => true
  | some block => block.isPlain
termination_by structural block

/-- Is the statement plain? The blocks of `try` and `finally` have braces. -/
def Stmt.isPlain (statement : Stmt) : Bool :=
  match statement with
  | .binding definition => definition.isPlain
  | .expression _ expr => expr.isPlain
  | .block body => body.isPlain
  | .empty _ | .jump .. => true
  | .ifElse _ test pass fail => test.isPlain && (pass.isPlain && blockPlain fail)
  | .forLoop loop => loop.isPlain
  | .whileLoop _ _ test body => test.isPlain && body.isPlain
  | .switch _ subject cases => subject.isPlain && casesPlain cases
  | .tryCatch _ body catches finalizer =>
    (body.kind == .braced && finalizer.all (·.kind == .braced)) &&
      (body.isPlain && (catchesPlain catches && blockPlain finalizer))
  | .throwValue _ value => value.isPlain
  | .returnValue _ value _ => optionalPlain value
  | .labelled _ _ body => body.isPlain
  | .withScope _ subject body => subject.isPlain && body.isPlain
termination_by structural statement

/-- Is the binding plain? A function is declared just where its binding says so. -/
def Binding.isPlain (binding : Binding) : Bool :=
  match binding with
  | ⟨_, name, some (.functionDef definition), _, isFunctionDeclaration⟩ =>
    name.name != defaultBindingName &&
      (definition.declares == isFunctionDeclaration && definition.isPlain)
  | ⟨_, name, init, _, isFunctionDeclaration⟩ =>
    name.name != defaultBindingName && (!isFunctionDeclaration && optionalPlain init)
termination_by structural binding

/-- Is the loop plain? Only counting loops have a test. -/
def ForLoop.isPlain (loop : ForLoop) : Bool :=
  match loop with
  | ⟨_, kind, init, test, update, body⟩ =>
    (kind == .classic || test.isNone) &&
      (optionalPlain init && (optionalPlain test && (optionalPlain update && body.isPlain)))
termination_by structural loop

/-- Are the clauses of a `switch` statement plain? -/
def casesPlain (cases : List SwitchCase) : Bool :=
  match cases with
  | [] => true
  | clause :: rest => clause.isPlain && casesPlain rest
termination_by structural cases

/-- Is a clause of a `switch` statement plain? -/
def SwitchCase.isPlain (clause : SwitchCase) : Bool :=
  match clause with
  | ⟨_, test, statements⟩ => optionalPlain test && statementsPlain statements
termination_by structural clause

/-- Are the `catch` clauses plain? -/
def catchesPlain (catches : List CatchClause) : Bool :=
  match catches with
  | [] => true
  | ⟨_, _, body⟩ :: rest => body.isPlain && catchesPlain rest
termination_by structural catches

end

/-- The leaves of statements are those of one statement after the other. -/
theorem statementLeaves_eq_flatMap (statements : List Stmt) :
    statementLeaves statements = statements.flatMap Stmt.leaves := by
  induction statements with
  | nil => rfl
  | cons statement rest ih => rw [statementLeaves, ih, List.flatMap_cons]

end Concretion
