import Concretion.Abstract.Tree

/-!
# Declared names

The names that a part of a program declares, at whatever depth: those of its bindings, and those of
its function declarations.

- `Expr.declared`, `Stmt.declared`, `Block.declared`: all names declared in a part.
- `FunctionDef.declares`: a function that declares its own name.
- `FunctionDef.inner`, `Binding.inner`, `Stmt.inner`: the names declared further inside.
-/

namespace Concretion

/-- Does the function declare its own name? -/
def FunctionDef.declares (definition : FunctionDef) : Bool :=
  definition.isDeclared && !definition.isAnonymous && !definition.isMethod

mutual

/-- The names declared in an expression. -/
def Expr.declared (expr : Expr) : List String :=
  match expr with
  | .ident _ | .literal .. => []
  | .array _ elements => declaredElements elements
  | .unary _ _ operand => operand.declared
  | .binary _ _ left right => left.declared ++ right.declared
  | .conditional _ test consequent alternate =>
    test.declared ++ (consequent.declared ++ alternate.declared)
  | .call _ callee arguments => callee.declared ++ declaredArguments arguments
  | .access _ base _ => base.declared
  | .index _ base index => base.declared ++ index.declared
  | .object _ members => declaredMembers members
  | .functionDef definition =>
    (if definition.declares then [definition.name.name] else []) ++ definition.inner
  | .classDef definition => definition.declared
termination_by structural expr

/-- The names declared in the elements of an array literal. -/
def declaredElements (elements : List (Option Expr)) : List String :=
  match elements with
  | [] => []
  | none :: rest => declaredElements rest
  | some element :: rest => element.declared ++ declaredElements rest
termination_by structural elements

/-- The names declared in the arguments of a call. -/
def declaredArguments (arguments : List Expr) : List String :=
  match arguments with
  | [] => []
  | argument :: rest => argument.declared ++ declaredArguments rest
termination_by structural arguments

/-- The names declared in an optional expression. -/
def declaredOptional (expr : Option Expr) : List String :=
  match expr with
  | none => []
  | some expr => expr.declared
termination_by structural expr

/-- The names declared in a member of an object literal or of a class. -/
def Member.declared (member : Member) : List String :=
  match member with
  | ⟨_, key, value, getter, setter, _, _⟩ =>
    key.declared ++ (declaredOptional value ++ (declaredAccessor getter ++ declaredAccessor setter))
termination_by structural member

/-- The names declared in an accessor. -/
def declaredAccessor (accessor : Option FunctionDef) : List String :=
  match accessor with
  | none => []
  | some definition => definition.inner
termination_by structural accessor

/-- The names declared in the members of an object literal or of a class. -/
def declaredMembers (members : List Member) : List String :=
  match members with
  | [] => []
  | member :: rest => member.declared ++ declaredMembers rest
termination_by structural members

/-- The names declared inside of a function, without its own. -/
def FunctionDef.inner (definition : FunctionDef) : List String :=
  match definition with
  | ⟨_, _, _, _, body, _, _, _, _⟩ => body.declared
termination_by structural definition

/-- The names declared in a class. -/
def ClassDef.declared (definition : ClassDef) : List String :=
  match definition with
  | ⟨_, _, heritage, constructor?, elements⟩ =>
    declaredOptional heritage ++ (declaredConstructor constructor? ++ declaredMembers elements)
termination_by structural definition

/-- The names declared in the constructor of a class. -/
def declaredConstructor (constructor? : Option Member) : List String :=
  match constructor? with
  | none => []
  | some member => member.declared
termination_by structural constructor?

/-- The names declared in a block. -/
def Block.declared (block : Block) : List String :=
  match block with
  | ⟨_, _, statements⟩ => declaredStatements statements
termination_by structural block

/-- The names declared in statements. -/
def declaredStatements (statements : List Stmt) : List String :=
  match statements with
  | [] => []
  | statement :: rest => statement.declared ++ declaredStatements rest
termination_by structural statements

/-- The names declared in an optional block. -/
def declaredBlock (block : Option Block) : List String :=
  match block with
  | none => []
  | some block => block.declared
termination_by structural block

/-- The names declared in a statement. -/
def Stmt.declared (statement : Stmt) : List String :=
  match statement with
  | .binding definition => definition.declared
  | .expression _ expr => expr.declared
  | .block body => body.declared
  | .empty _ => []
  | .ifElse _ test pass fail => test.declared ++ (pass.declared ++ declaredBlock fail)
  | .forLoop loop => loop.declared
  | .whileLoop _ _ test body => test.declared ++ body.declared
  | .switch _ subject cases => subject.declared ++ declaredCases cases
  | .tryCatch _ body catches finalizer =>
    body.declared ++ (declaredCatches catches ++ declaredBlock finalizer)
  | .throwValue _ value => value.declared
  | .returnValue _ value _ => declaredOptional value
  | .jump .. => []
  | .labelled _ _ body => body.declared
  | .withScope _ subject body => subject.declared ++ body.declared
termination_by structural statement

/-- The names declared in a binding: its own, and those in its value. -/
def Binding.declared (binding : Binding) : List String :=
  match binding with
  | ⟨_, name, init, _, _⟩ => name.name :: declaredOptional init
termination_by structural binding

/-- The names declared in a loop. Those of its header come in front of it. -/
def ForLoop.declared (loop : ForLoop) : List String :=
  match loop with
  | ⟨_, _, init, test, update, body⟩ =>
    declaredOptional init ++ (declaredOptional test ++ (declaredOptional update ++ body.declared))
termination_by structural loop

/-- The names declared in the clauses of a `switch` statement. -/
def declaredCases (cases : List SwitchCase) : List String :=
  match cases with
  | [] => []
  | clause :: rest => clause.declared ++ declaredCases rest
termination_by structural cases

/-- The names declared in a clause of a `switch` statement. -/
def SwitchCase.declared (clause : SwitchCase) : List String :=
  match clause with
  | ⟨_, test, statements⟩ => declaredOptional test ++ declaredStatements statements
termination_by structural clause

/-- The names declared in `catch` clauses. -/
def declaredCatches (catches : List CatchClause) : List String :=
  match catches with
  | [] => []
  | ⟨_, _, body⟩ :: rest => body.declared ++ declaredCatches rest
termination_by structural catches

end

/-! ## Names further inside -/

/-- The names declared in a binding, other than the one that stands for the binding: its own name,
or that of the function it declares. The value of a default export stands on its own. -/
def Binding.inner : Binding → List String
  | ⟨_, name, some (.functionDef definition), _, true⟩ =>
    if name.name == defaultBindingName then (Expr.functionDef definition).declared
    else definition.inner
  | ⟨_, _, init, _, _⟩ => declaredOptional init

/-- The names declared in a statement, other than the one that the statement declares. -/
def Stmt.inner : Stmt → List String
  | .binding definition => definition.inner
  | .expression _ (.functionDef definition) => definition.inner
  | statement => statement.declared

end Concretion
