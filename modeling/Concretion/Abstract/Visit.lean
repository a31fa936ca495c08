import Concretion.Abstract.Tree

/-!
# Visiting an abstract tree

A walk over an abstract tree announces every part before it goes on to the parts inside. The order
is not always that of the text: a binding has its value before its name, a `try` statement its
`finally` block first, a `do` loop its body before its test. A function leads on to its body only,
and to its parameters when asked for them; the name of a class is not visited.

- `Visit`: one announcement, with `Visit.name` and `Visit.range`.
- `Block.walk`: the walk in an arbitrary monad, whose effects a visitor uses to stop early.
- `Block.record`: the walk with a visitor that keeps what it is interested in, up to a limit.
-/

namespace Concretion

/-- What a walk announces. Statements and expressions are announced twice, first as such and then
for what they are. -/
inductive Visit where
  | block (block : Block)
  /-- A statement of whatever kind. -/
  | anyStatement (statement : Stmt)
  /-- A statement that is no block, for what it is. -/
  | statement (statement : Stmt)
  | switchCase (clause : SwitchCase)
  | catchClause (clause : CatchClause)
  /-- An expression of whatever kind. -/
  | anyExpression (expression : Expr)
  /-- An expression with a range of its own, for what it is. -/
  | expression (expression : Expr)
  | ident (name : Ident)
  | member (member : Member)
  | function (definition : FunctionDef)
  | classDef (definition : ClassDef)

/-- The range of what is announced. -/
def Visit.range : Visit → Range
  | block body => body.range
  | anyStatement stmt | statement stmt => stmt.range
  | switchCase clause => clause.range
  | catchClause clause => clause.range
  | anyExpression expr | expression expr => expr.range
  | ident name => name.range
  | member property => property.range
  | function definition => definition.range
  | classDef definition => definition.range

/-- The name of a statement for what it is. -/
def Stmt.name : Stmt → String
  | binding _ => "var"
  | expression .. => "expression_statement"
  | block _ => "block"
  | empty _ => "empty"
  | ifElse .. => "if"
  | forLoop _ => "for"
  | whileLoop .. => "while"
  | switch .. => "switch"
  | tryCatch .. => "try"
  | throwValue .. => "throw"
  | returnValue .. => "return"
  | jump _ kind _ => kind.keyword
  | labelled .. => "label"
  | withScope .. => "with"

/-- The name of an expression for what it is. -/
def Expr.name : Expr → String
  | ident _ => "ident"
  | literal .. | array .. => "literal"
  | unary .. => "unary"
  | binary .. => "binary"
  | conditional .. => "ternary"
  | call .. => "call"
  | access .. => "access"
  | index .. => "index"
  | object .. => "object"
  | functionDef _ => "function"
  | classDef _ => "class"

/-- The name of what is announced. -/
def Visit.name : Visit → String
  | block _ => "block"
  | anyStatement _ => "stmt"
  | statement stmt => stmt.name
  | switchCase _ => "case"
  | catchClause _ => "catch"
  | anyExpression _ => "expr"
  | expression expr => expr.name
  | ident _ => "ident"
  | member _ => "property"
  | function _ => "function"
  | classDef _ => "class"

/-! ## The walk -/

section Walk

variable {m : Type → Type} [Monad m] (visit : Visit → m Unit) (withParameters : Bool)

mutual

/-- Walks over an expression. -/
def Expr.walk (expr : Expr) : m Unit := do
  visit (.anyExpression expr)
  match expr with
  | .ident name => visit (.ident name)
  | .literal range value => visit (.expression (.literal range value))
  | .array range elements =>
    visit (.expression (.array range elements))
    Walk.elements elements
  | .unary range operator operand =>
    visit (.expression (.unary range operator operand))
    operand.walk
  | .binary range operator left right =>
    visit (.expression (.binary range operator left right))
    left.walk
    right.walk
  | .conditional range test consequent alternate =>
    visit (.expression (.conditional range test consequent alternate))
    test.walk
    consequent.walk
    alternate.walk
  | .call range callee arguments =>
    visit (.expression (.call range callee arguments))
    callee.walk
    Walk.arguments arguments
  | .access range base property =>
    visit (.expression (.access range base property))
    base.walk
  | .index range base index =>
    visit (.expression (.index range base index))
    base.walk
    index.walk
  | .object range members =>
    visit (.expression (.object range members))
    Walk.members members
  | .functionDef definition => definition.walk
  | .classDef definition => definition.walk
termination_by structural expr

/-- Walks over the present elements of an array literal. -/
def Walk.elements (elements : List (Option Expr)) : m Unit := do
  match elements with
  | [] => pure ()
  | none :: rest => Walk.elements rest
  | some element :: rest =>
    element.walk
    Walk.elements rest
termination_by structural elements

/-- Walks over the arguments of a call. -/
def Walk.arguments (arguments : List Expr) : m Unit := do
  match arguments with
  | [] => pure ()
  | argument :: rest =>
    argument.walk
    Walk.arguments rest
termination_by structural arguments

/-- Walks over an optional expression. -/
def Walk.optional (expr : Option Expr) : m Unit := do
  match expr with
  | none => pure ()
  | some expr => expr.walk
termination_by structural expr

/-- Walks over a member: its key, then its value or its accessors. -/
def Member.walk (property : Member) : m Unit := do
  match property with
  | ⟨range, key, value, getter, setter, isStatic, isComputed⟩ =>
    visit (.member ⟨range, key, value, getter, setter, isStatic, isComputed⟩)
    key.walk
    Walk.optional value
    Walk.accessor getter
    Walk.accessor setter
termination_by structural property

/-- Walks over the members of an object literal or a class. -/
def Walk.members (members : List Member) : m Unit := do
  match members with
  | [] => pure ()
  | member :: rest =>
    member.walk
    Walk.members rest
termination_by structural members

/-- Walks over an optional accessor. -/
def Walk.accessor (accessor : Option FunctionDef) : m Unit := do
  match accessor with
  | none => pure ()
  | some definition => definition.walk
termination_by structural accessor

/-- Walks over a function: its parameters if they are asked for, and its body. -/
def FunctionDef.walk (definition : FunctionDef) : m Unit := do
  match definition with
  | ⟨range, name, kind, parameters, body, isAnonymous, isMethod, isDeclared, hasDirectSuper⟩ =>
    visit (.function
      ⟨range, name, kind, parameters, body, isAnonymous, isMethod, isDeclared, hasDirectSuper⟩)
    if withParameters then parameters.forM fun parameter => visit (.ident parameter)
    body.walk
termination_by structural definition

/-- Walks over a class: superclass, constructor, and the other members. -/
def ClassDef.walk (definition : ClassDef) : m Unit := do
  match definition with
  | ⟨range, name, heritage, constructor?, elements⟩ =>
    visit (.classDef ⟨range, name, heritage, constructor?, elements⟩)
    Walk.optional heritage
    Walk.constructor constructor?
    Walk.members elements
termination_by structural definition

/-- Walks over the constructor of a class, if it has one. -/
def Walk.constructor (constructor? : Option Member) : m Unit := do
  match constructor? with
  | none => pure ()
  | some member => member.walk
termination_by structural constructor?

/-- Walks over a block. -/
def Block.walk (block : Block) : m Unit := do
  match block with
  | ⟨range, kind, statements⟩ =>
    visit (.block ⟨range, kind, statements⟩)
    Walk.statements statements
termination_by structural block

/-- Walks over statements, each announced as a statement first. -/
def Walk.statements (statements : List Stmt) : m Unit := do
  match statements with
  | [] => pure ()
  | statement :: rest =>
    statement.walk
    Walk.statements rest
termination_by structural statements

/-- Walks over an optional block. -/
def Walk.optionalBlock (block : Option Block) : m Unit := do
  match block with
  | none => pure ()
  | some block => block.walk
termination_by structural block

/-- Walks over a statement. -/
def Stmt.walk (statement : Stmt) : m Unit := do
  visit (.anyStatement statement)
  match statement with
  | .binding definition =>
    visit (.statement (.binding definition))
    definition.walk
  | .expression range expr =>
    visit (.statement (.expression range expr))
    expr.walk
  | .block body => body.walk
  | .empty range => visit (.statement (.empty range))
  | .ifElse range test pass fail =>
    visit (.statement (.ifElse range test pass fail))
    test.walk
    pass.walk
    Walk.optionalBlock fail
  | .forLoop loop =>
    visit (.statement (.forLoop loop))
    loop.walk
  | .whileLoop range isDo test body =>
    visit (.statement (.whileLoop range isDo test body))
    if isDo then
      body.walk
      test.walk
    else
      test.walk
      body.walk
  | .switch range subject cases =>
    visit (.statement (.switch range subject cases))
    subject.walk
    Walk.cases cases
  | .tryCatch range body catches finalizer =>
    visit (.statement (.tryCatch range body catches finalizer))
    Walk.optionalBlock finalizer
    body.walk
    Walk.catches catches
  | .throwValue range value =>
    visit (.statement (.throwValue range value))
    value.walk
  | .returnValue range value isGenerated =>
    visit (.statement (.returnValue range value isGenerated))
    Walk.optional value
  | .jump range kind label => visit (.statement (.jump range kind label))
  | .labelled range label body =>
    visit (.statement (.labelled range label body))
    body.walk
  | .withScope range subject body =>
    visit (.statement (.withScope range subject body))
    subject.walk
    body.walk
termination_by structural statement

/-- Walks over the value and then the name of a binding. -/
def Binding.walk (binding : Binding) : m Unit := do
  match binding with
  | ⟨_, name, init, _, _⟩ =>
    Walk.optional init
    visit (.ident name)
termination_by structural binding

/-- Walks over the clauses and the body of a loop. -/
def ForLoop.walk (loop : ForLoop) : m Unit := do
  match loop with
  | ⟨_, _, init, test, update, body⟩ =>
    Walk.optional init
    Walk.optional test
    Walk.optional update
    body.walk
termination_by structural loop

/-- Walks over the clauses of a `switch` statement. -/
def Walk.cases (cases : List SwitchCase) : m Unit := do
  match cases with
  | [] => pure ()
  | clause :: rest =>
    clause.walk
    Walk.cases rest
termination_by structural cases

/-- Walks over the test and the statements of a clause. -/
def SwitchCase.walk (clause : SwitchCase) : m Unit := do
  match clause with
  | ⟨range, test, statements⟩ =>
    visit (.switchCase ⟨range, test, statements⟩)
    Walk.optional test
    Walk.statements statements
termination_by structural clause

/-- Walks over `catch` clauses. -/
def Walk.catches (catches : List CatchClause) : m Unit := do
  match catches with
  | [] => pure ()
  | clause :: rest =>
    clause.walk
    Walk.catches rest
termination_by structural catches

/-- Walks over the exception and the body of a `catch` clause. -/
def CatchClause.walk (clause : CatchClause) : m Unit := do
  match clause with
  | ⟨range, exception, body⟩ =>
    visit (.catchClause ⟨range, exception, body⟩)
    visit (.ident exception)
    body.walk
termination_by structural clause

end

end Walk

/-! ## Recording a walk -/

/-- What a visitor kept of a walk. -/
structure Recording where
  visits : Array Visit
  /-- Whether the walk came to its end. -/
  completed : Bool

namespace Recording

/-- A visitor that keeps the wanted announcements, and fails at the first one beyond its limit. -/
def keep (wanted : Visit → Bool) (limit : Option Nat) (visit : Visit) :
    ExceptT Unit (StateM (Array Visit)) Unit := do
  if wanted visit then
    if limit.any (· ≤ (← get).size) then throw ()
    modify (·.push visit)

/-- Is an identifier announced? -/
def isIdent : Visit → Bool
  | .ident _ => true
  | _ => false

end Recording

/-- Walks over a block and records the wanted announcements up to a limit. -/
def Block.record (block : Block) (wanted : Visit → Bool) (limit : Option Nat)
    (withParameters : Bool) : Recording :=
  match (block.walk (Recording.keep wanted limit) withParameters).run #[] with
  | (.ok (), visits) => ⟨visits, true⟩
  | (.error (), visits) => ⟨visits, false⟩

end Concretion
