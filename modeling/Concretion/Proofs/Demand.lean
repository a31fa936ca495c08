import Concretion.Proofs.Declared

/-!
# Demands on abstract trees

Not every abstract tree comes from a parser. What a result asks of the trees it speaks about, other
than at their top, it asks of some of their parts, wherever they occur.

- `Demand`: what is asked of functions and of the blocks of `try` statements.
- `Expr.meets`, `Stmt.meets`, `Block.meets`: all parts that are recovered are as they should be.
- `Demand.bound`: functions declare their names only where a binding says so.
- `Demand.inPlace`: the same, and the blocks of `try` and `finally` have braces.
- `Demand.written`: parameters that collect the remaining arguments are written down.
-/

namespace Concretion

/-- What is asked of the parts of an abstract tree. -/
structure Demand where
  /-- Asked of every function. -/
  function : FunctionDef → Bool
  /-- Asked of a function in addition, unless a binding says that it declares it. -/
  operand : FunctionDef → Bool
  /-- Asked of the blocks of `try` and `finally`. -/
  guarded : Block → Bool

/-- Does the binding declare a function under a name of its own? -/
def declaresFunction (name : Ident) (isFunctionDeclaration : Bool) : Bool :=
  isFunctionDeclaration && name.name != defaultBindingName

mutual

/-- Does the expression meet the demand? -/
def Expr.meets (demand : Demand) (expr : Expr) : Bool :=
  match expr with
  | .ident _ | .literal .. => true
  | .array _ elements => elementsMeet demand elements
  | .unary _ _ operand => operand.meets demand
  | .binary _ _ left right => left.meets demand && right.meets demand
  | .conditional _ test consequent alternate =>
    test.meets demand && (consequent.meets demand && alternate.meets demand)
  | .call _ callee arguments => callee.meets demand && argumentsMeet demand arguments
  | .access _ base _ => base.meets demand
  | .index _ base index => base.meets demand && index.meets demand
  | .object _ members => membersMeet demand members
  | .functionDef definition => demand.operand definition && definition.meets demand
  | .classDef definition => definition.meets demand
termination_by structural expr

/-- Do the elements of an array literal meet the demand? -/
def elementsMeet (demand : Demand) (elements : List (Option Expr)) : Bool :=
  match elements with
  | [] => true
  | none :: rest => elementsMeet demand rest
  | some element :: rest => element.meets demand && elementsMeet demand rest
termination_by structural elements

/-- Do the arguments of a call meet the demand? -/
def argumentsMeet (demand : Demand) (arguments : List Expr) : Bool :=
  match arguments with
  | [] => true
  | argument :: rest => argument.meets demand && argumentsMeet demand rest
termination_by structural arguments

/-- Does an optional expression meet the demand? -/
def optionalMeets (demand : Demand) (expr : Option Expr) : Bool :=
  match expr with
  | none => true
  | some expr => expr.meets demand
termination_by structural expr

/-- Does a member of an object literal or of a class meet the demand? -/
def Member.meets (demand : Demand) (member : Member) : Bool :=
  match member with
  | ⟨_, key, value, getter, setter, _, _⟩ =>
    key.meets demand && (optionalMeets demand value &&
      (accessorMeets demand getter && accessorMeets demand setter))
termination_by structural member

/-- Does an accessor meet the demand? -/
def accessorMeets (demand : Demand) (accessor : Option FunctionDef) : Bool :=
  match accessor with
  | none => true
  | some definition => definition.meets demand
termination_by structural accessor

/-- Do the members of an object literal or of a class meet the demand? -/
def membersMeet (demand : Demand) (members : List Member) : Bool :=
  match members with
  | [] => true
  | member :: rest => member.meets demand && membersMeet demand rest
termination_by structural members

/-- Does the function meet the demand, wherever it occurs? -/
def FunctionDef.meets (demand : Demand) (definition : FunctionDef) : Bool :=
  match definition with
  | ⟨range, name, kind, parameters, body, isAnonymous, isMethod, isDeclared, hasDirectSuper⟩ =>
    demand.function ⟨range, name, kind, parameters, body, isAnonymous, isMethod, isDeclared,
      hasDirectSuper⟩ && body.meets demand
termination_by structural definition

/-- Does the class meet the demand? Nothing is asked of a constructor that was made up. -/
def ClassDef.meets (demand : Demand) (definition : ClassDef) : Bool :=
  match definition with
  | ⟨_, _, heritage, none, elements⟩ =>
    optionalMeets demand heritage && membersMeet demand elements
  | ⟨range, name, heritage, some member, elements⟩ =>
    optionalMeets demand heritage &&
      (((ClassDef.mk range name heritage (some member) elements).isImplicitConstructor member ||
        member.meets demand) && membersMeet demand elements)
termination_by structural definition

/-- Does the block meet the demand? -/
def Block.meets (demand : Demand) (block : Block) : Bool :=
  match block with
  | ⟨_, _, statements⟩ => statementsMeet demand statements
termination_by structural block

/-- Do the statements meet the demand? -/
def statementsMeet (demand : Demand) (statements : List Stmt) : Bool :=
  match statements with
  | [] => true
  | statement :: rest => statement.meets demand && statementsMeet demand rest
termination_by structural statements

/-- Does an optional block meet the demand? -/
def blockMeets (demand : Demand) (block : Option Block) : Bool :=
  match block with
  | none => true
  | some block => block.meets demand
termination_by structural block

/-- Does the statement meet the demand? -/
def Stmt.meets (demand : Demand) (statement : Stmt) : Bool :=
  match statement with
  | .binding definition => definition.meets demand
  | .expression _ expr => expr.meets demand
  | .block body => body.meets demand
  | .empty _ | .jump .. => true
  | .ifElse _ test pass fail =>
    test.meets demand && (pass.meets demand && blockMeets demand fail)
  | .forLoop loop => loop.meets demand
  | .whileLoop _ _ test body => test.meets demand && body.meets demand
  | .switch _ subject cases => subject.meets demand && casesMeet demand cases
  | .tryCatch _ body catches finalizer =>
    (demand.guarded body && finalizer.all demand.guarded) &&
      (body.meets demand && (catchesMeet demand catches && blockMeets demand finalizer))
  | .throwValue _ value => value.meets demand
  | .returnValue _ value _ => optionalMeets demand value
  | .labelled _ _ body => body.meets demand
  | .withScope _ subject body => subject.meets demand && body.meets demand
termination_by structural statement

/-- Does the binding meet the demand? -/
def Binding.meets (demand : Demand) (binding : Binding) : Bool :=
  match binding with
  | ⟨_, name, some (.functionDef definition), _, isFunctionDeclaration⟩ =>
    (declaresFunction name isFunctionDeclaration || demand.operand definition) &&
      definition.meets demand
  | ⟨_, _, init, _, _⟩ => optionalMeets demand init
termination_by structural binding

/-- Does the loop meet the demand? -/
def ForLoop.meets (demand : Demand) (loop : ForLoop) : Bool :=
  match loop with
  | ⟨_, _, init, test, update, body⟩ =>
    optionalMeets demand init && (optionalMeets demand test &&
      (optionalMeets demand update && body.meets demand))
termination_by structural loop

/-- Do the clauses of a `switch` statement meet the demand? -/
def casesMeet (demand : Demand) (cases : List SwitchCase) : Bool :=
  match cases with
  | [] => true
  | clause :: rest => clause.meets demand && casesMeet demand rest
termination_by structural cases

/-- Does a clause of a `switch` statement meet the demand? -/
def SwitchCase.meets (demand : Demand) (clause : SwitchCase) : Bool :=
  match clause with
  | ⟨_, test, statements⟩ => optionalMeets demand test && statementsMeet demand statements
termination_by structural clause

/-- Do the `catch` clauses meet the demand? -/
def catchesMeet (demand : Demand) (catches : List CatchClause) : Bool :=
  match catches with
  | [] => true
  | ⟨_, _, body⟩ :: rest => body.meets demand && catchesMeet demand rest
termination_by structural catches

end

namespace Demand

/-- Functions declare their names only where a binding says so. -/
def bound : Demand where
  function _ := true
  operand definition := !definition.declares
  guarded _ := true

/-- In addition, the blocks of `try` and `finally` have braces. -/
def inPlace : Demand := { bound with guarded := fun block => block.kind == .braced }

/-- Is a parameter that collects the remaining arguments more than nothing? -/
def collects (parameter : Ident) : Bool :=
  !parameter.isRest || parameter.range.start < parameter.range.finish

/-- Parameters that collect the remaining arguments are written down: their ranges are not empty. -/
def written : Demand where
  function definition := definition.parameters.all collects
  operand _ := true
  guarded _ := true

end Demand

end Concretion
