import Concretion.Recovery.Rule.Block
import Concretion.Recovery.Rule.Branch
import Concretion.Recovery.Rule.Collection
import Concretion.Recovery.Rule.Member
import Concretion.Recovery.Rule.Operation
import Concretion.Recovery.Rule.Plain
import Concretion.Recovery.Rule.Reference
import Concretion.Recovery.Rule.Try

/-!
# Recovery of whole trees

Each construct of the abstract tree is recovered by its rule, from fragments of its parts. This
module only takes the tree apart.

- `Expr.recover`, `Stmt.recover`, `Block.recover`: recover into the innermost open node.
- `FunctionDef.fragment`, `ClassDef.fragment`, `Member.fragment` and so on: what the rules see.
- `forall_initialisers_cons`: what holds of default values, statement by statement.
-/

namespace Concretion

/-- What the rules see of an expression that is recovered in the given way. -/
def Expr.fragmentOf (expr : Expr) (build : Recover Unit) : Fragment :=
  ⟨expr.range, expr.operator?, build⟩

/-- Where the body of a function begins in the text: behind the statements that initialise its
parameters. -/
def Block.writtenStart (block : Block) : Nat :=
  match block.kind, block.lastStatement? with
  | .parameter, some statement => statement.range.start
  | _, _ => block.range.start

mutual

/-- Recovers an expression. -/
def Expr.recover (expr : Expr) : Recover Unit :=
  match expr with
  | .ident name => Rule.ident name
  | .literal range value => Rule.literal range value
  | .array range elements => Rule.array range (elementFragments elements)
  | .unary range operator operand =>
    Rule.unary range operator (operand.fragmentOf operand.recover)
  | .binary range operator left right =>
    Rule.binary range operator (left.fragmentOf left.recover) (right.fragmentOf right.recover)
  | .conditional range test consequent alternate =>
    Rule.conditional range (test.fragmentOf test.recover)
      (consequent.fragmentOf consequent.recover) (alternate.fragmentOf alternate.recover)
  | .call range callee arguments =>
    Rule.call range (callee.fragmentOf callee.recover) (argumentFragments arguments)
  | .access range base property =>
    Rule.access range (base.fragmentOf base.recover) property
  | .index range base index =>
    Rule.index range (base.fragmentOf base.recover) (index.fragmentOf index.recover)
  | .object range members => Rule.object range (memberBuilds members)
  | .functionDef definition => Rule.functionExpression definition.fragment
  | .classDef definition => Rule.classExpression definition.fragment
termination_by structural expr

/-- The elements of an array literal. -/
def elementFragments (elements : List (Option Expr)) : List (Option Fragment) :=
  match elements with
  | [] => []
  | none :: rest => none :: elementFragments rest
  | some element :: rest =>
    some (element.fragmentOf element.recover) :: elementFragments rest
termination_by structural elements

/-- The arguments of a call. -/
def argumentFragments (arguments : List Expr) : List Fragment :=
  match arguments with
  | [] => []
  | argument :: rest => argument.fragmentOf argument.recover :: argumentFragments rest
termination_by structural arguments

/-- An optional expression. -/
def optionalFragment (expr : Option Expr) : Option Fragment :=
  match expr with
  | none => none
  | some expr => some (expr.fragmentOf expr.recover)
termination_by structural expr

/-- A member of an object literal or of a class. -/
def Member.fragment (member : Member) : MemberFragment :=
  match member with
  | ⟨range, key, value, getter, setter, isStatic, isComputed⟩ =>
    { range, isStatic, isComputed
      key := key.fragmentOf key.recover
      value := memberValue value
      getter := accessorFragment getter
      setter := accessorFragment setter }
termination_by structural member

/-- The value of a member. A function is a method if it is marked as one. -/
def memberValue (value : Option Expr) : Option MemberValue :=
  match value with
  | none => none
  | some (.functionDef definition) =>
    if definition.isMethod then some (.method definition.fragment)
    else
      some (.expression ((Expr.functionDef definition).fragmentOf
        (Rule.functionExpression definition.fragment)))
  | some value => some (.expression (value.fragmentOf value.recover))
termination_by structural value

/-- An accessor of a member. -/
def accessorFragment (accessor : Option FunctionDef) : Option FunctionFragment :=
  match accessor with
  | none => none
  | some definition => some definition.fragment
termination_by structural accessor

/-- The members of an object literal. -/
def memberBuilds (members : List Member) : List (Recover Unit) :=
  match members with
  | [] => []
  | member :: rest => Rule.member member.fragment :: memberBuilds rest
termination_by structural members

/-- The members of a class. -/
def elementBuilds (members : List Member) : List ElementFragment :=
  match members with
  | [] => []
  | member :: rest => ⟨member.range, Rule.member member.fragment⟩ :: elementBuilds rest
termination_by structural members

/-- A function. -/
def FunctionDef.fragment (definition : FunctionDef) : FunctionFragment :=
  match definition with
  | ⟨range, name, kind, parameters, body, isAnonymous, isMethod, isDeclared, _⟩ =>
    { range, name, kind, parameters, isAnonymous, isMethod, isDeclared
      body := ⟨body.range, body.recover⟩
      bodyStart := body.writtenStart
      defaults := body.defaults }
termination_by structural definition

/-- A class. A constructor made up for it is left out. -/
def ClassDef.fragment (definition : ClassDef) : ClassFragment :=
  match definition with
  | ⟨range, name, heritage, none, elements⟩ =>
    { range, name
      heritage := optionalFragment heritage
      elements := elementBuilds elements }
  | ⟨range, name, heritage, some member, elements⟩ =>
    let written : ElementFragment := ⟨member.range, Rule.member member.fragment⟩
    let isImplicit :=
      (ClassDef.mk range name heritage (some member) elements).isImplicitConstructor member
    { range, name
      heritage := optionalFragment heritage
      elements := if isImplicit then elementBuilds elements else written :: elementBuilds elements }
termination_by structural definition

/-- Recovers a block. -/
def Block.recover (block : Block) : Recover Unit :=
  match block with
  | ⟨range, kind, statements⟩ => Rule.block range kind (statementFragments statements)
termination_by structural block

/-- The default values of parameters that a block initialises, which are set in the statements in
front of its last. -/
def Block.defaults (block : Block) : List (String × Fragment) :=
  match block with
  | ⟨_, .parameter, statements⟩ => (initialisers statements).dropLast.filterMap id
  | _ => []
termination_by structural block

/-- The default values set by statements: the first branch of a conditional that is assigned to an
identifier. -/
def initialisers (statements : List Stmt) : List (Option (String × Fragment)) :=
  match statements with
  | [] => []
  | .expression _ (.binary _ _ (.ident name) (.conditional _ _ value _)) :: rest =>
    some (name.name, value.fragmentOf value.recover) :: initialisers rest
  | _ :: rest => none :: initialisers rest
termination_by structural statements

/-- The statements of a block. -/
def statementFragments (statements : List Stmt) : List StatementFragment :=
  match statements with
  | [] => []
  | .binding definition :: rest =>
    ⟨definition.range, true, none, definition.recover⟩ :: statementFragments rest
  | .forLoop loop :: rest =>
    ⟨loop.range, false, some loop.fragment, Rule.forLoop loop.fragment none⟩ ::
      statementFragments rest
  | statement :: rest =>
    ⟨statement.range, false, none, statement.recover⟩ :: statementFragments rest
termination_by structural statements

/-- An optional block. -/
def optionalBlock (block : Option Block) : Option BlockFragment :=
  match block with
  | none => none
  | some block => some ⟨block.range, block.recover⟩
termination_by structural block

/-- Recovers a statement. -/
def Stmt.recover (statement : Stmt) : Recover Unit :=
  match statement with
  | .binding definition => definition.recover
  | .expression _ expr => Rule.expressionStatement (expr.fragmentOf expr.recover)
  | .block body => body.recover
  | .empty range => Rule.emptyStatement range
  | .ifElse range test pass fail =>
    Rule.ifElse range (test.fragmentOf test.recover) ⟨pass.range, pass.recover⟩
      (optionalBlock fail)
  | .forLoop loop => Rule.forLoop loop.fragment none
  | .whileLoop range isDo test body =>
    if isDo then Rule.doLoop range (test.fragmentOf test.recover) ⟨body.range, body.recover⟩
    else Rule.whileLoop range (test.fragmentOf test.recover) ⟨body.range, body.recover⟩
  | .switch range subject cases =>
    Rule.switch range (subject.fragmentOf subject.recover) (caseBuilds cases)
  | .tryCatch range body catches finalizer =>
    Rule.tryCatch range ⟨body.range, body.recover⟩ (catchBuilds catches)
      (optionalBlock finalizer)
  | .throwValue range value => Rule.throwStatement range (value.fragmentOf value.recover)
  | .returnValue range value isGenerated =>
    Rule.returnStatement range (optionalFragment value) isGenerated
  | .jump range kind label => Rule.jump range kind label
  | .labelled range label body => Rule.labelled range label ⟨body.range, body.recover⟩
  | .withScope range subject body =>
    Rule.withScope range (subject.fragmentOf subject.recover) ⟨body.range, body.recover⟩
termination_by structural statement

/-- Recovers a binding. -/
def Binding.recover (binding : Binding) : Recover Unit :=
  match binding with
  | ⟨range, name, some (.classDef definition), kind, isFunctionDeclaration⟩ =>
    if (Binding.mk range name (some (.classDef definition)) kind
        isFunctionDeclaration).declaresClass then
      Rule.classDeclaration name definition.fragment
    else
      Rule.binding ⟨range, name,
        some ((Expr.classDef definition).fragmentOf (Rule.classExpression definition.fragment)),
        kind, isFunctionDeclaration⟩
  | ⟨range, name, init, kind, isFunctionDeclaration⟩ =>
    Rule.binding ⟨range, name, optionalFragment init, kind, isFunctionDeclaration⟩
termination_by structural binding

/-- A `for` loop. -/
def ForLoop.fragment (loop : ForLoop) : LoopFragment :=
  match loop with
  | ⟨range, kind, init, test, update, body⟩ =>
    { range, kind
      init := optionalFragment init
      test := optionalFragment test
      update := optionalFragment update
      body := ⟨body.range, body.recover⟩ }
termination_by structural loop

/-- The clauses of a `switch` statement. -/
def caseBuilds (cases : List SwitchCase) : List (Range × Recover Unit) :=
  match cases with
  | [] => []
  | clause :: rest => (clause.range, clause.recover) :: caseBuilds rest
termination_by structural cases

/-- Recovers a clause of a `switch` statement. -/
def SwitchCase.recover (clause : SwitchCase) : Recover Unit :=
  match clause with
  | ⟨range, test, statements⟩ =>
    Rule.switchCase ⟨range, optionalFragment test, statementFragments statements⟩
termination_by structural clause

/-- The `catch` clauses of a `try` statement. -/
def catchBuilds (catches : List CatchClause) : List (Recover Unit) :=
  match catches with
  | [] => []
  | ⟨range, exception, body⟩ :: rest =>
    Rule.catchClause range exception ⟨body.range, body.recover⟩ :: catchBuilds rest
termination_by structural catches

end

/-- What holds of a function as a method and as an expression holds of the value of its member. -/
theorem forall_memberValue_function {P : MemberValue → Prop} {definition : FunctionDef}
    (hmethod : P (.method definition.fragment))
    (hvalue : P (.expression ((Expr.functionDef definition).fragmentOf
      (Expr.functionDef definition).recover))) :
    ∀ part ∈ memberValue (some (.functionDef definition)), P part := by
  intro part hpart
  simp only [memberValue] at hpart
  split at hpart
  · cases hpart
    exact hmethod
  · cases hpart
    exact hvalue

/-- What holds of the default value that a statement may set, and of those that the statements
behind it set, holds of all of them. -/
theorem forall_initialisers_cons {P : Fragment → Prop} {statement : Stmt} {rest : List Stmt}
    (h : ∀ range inner operator name outer test value alternate, statement = .expression range
      (.binary inner operator (.ident name) (.conditional outer test value alternate)) →
        P (value.fragmentOf value.recover))
    (hrest : ∀ found ∈ initialisers rest, ∀ value ∈ found, P value.2) :
    ∀ found ∈ initialisers (statement :: rest), ∀ value ∈ found, P value.2 := by
  have hnone : ∀ value ∈ (none : Option (String × Fragment)), P value.2 := by
    rintro value ⟨⟩
  unfold initialisers
  split
  · next heq =>
    cases heq
  · next heq =>
    cases heq
    refine List.forall_mem_cons.2 ⟨?_, hrest⟩
    rintro value ⟨⟩
    exact h _ _ _ _ _ _ _ _ rfl
  · next heq =>
    cases heq
    exact List.forall_mem_cons.2 ⟨hnone, hrest⟩

end Concretion
