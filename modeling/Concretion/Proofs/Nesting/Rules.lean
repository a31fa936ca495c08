import Concretion.Proofs.Demand
import Concretion.Proofs.Nesting
import Concretion.Recovery.Rule.Block
import Concretion.Recovery.Rule.Branch
import Concretion.Recovery.Rule.Collection
import Concretion.Recovery.Rule.Member
import Concretion.Recovery.Rule.Operation
import Concretion.Recovery.Rule.Plain
import Concretion.Recovery.Rule.Reference
import Concretion.Recovery.Rule.Try

/-!
# Rules leave nested trees

What a rule leaves is nested if what the fragments leave is that it puts together. Most rules attach
what a node that was open has become. The others make a node around nodes that are closed already,
or change one of these, and they see to it that it lies around what it is made to hold:

- `Rule.nests_wrapExport`, `Rule.nests_variableStatement`: a statement around a declaration, which
  begins in front of it and ends with it.
- `Rule.nests_restParameter`: dots and a name, in one node as long as the name is not empty.
- `Rule.nests_extendVariables`: a declarator added to a statement, and to what that one exports.
- `Rule.nests_combineDeclarations`: the declarators of several statements in a single one.
- `Rule.nests_finallyClause`: a keyword and the block behind it.

The order of the lemmas is that of the rules.
-/

namespace Concretion

open Recover

/-! ## Fragments -/

/-- Whatever the computation recovers is nested. -/
abbrev StaysNested (scope : Scope) (action : Recover Unit) : Prop :=
  Nests scope action fun _ => True

/-- The recovery of an expression leaves nested trees. -/
def Fragment.Nests (scope : Scope) (fragment : Fragment) : Prop := StaysNested scope fragment.build

/-- The recovery of a block leaves nested trees. -/
def BlockFragment.Nests (scope : Scope) (fragment : BlockFragment) : Prop :=
  StaysNested scope fragment.build

/-- The parts of a function leave nested trees, and its rest parameter is not empty. -/
structure FunctionFragment.Nests (scope : Scope) (function : FunctionFragment) : Prop where
  body : function.body.Nests scope
  defaults : ∀ value ∈ function.defaults, value.2.Nests scope
  collects : ∀ parameter ∈ function.parameters, Demand.collects parameter = true

/-- The value of a member leaves nested trees. -/
def MemberValue.Nests (scope : Scope) : MemberValue → Prop
  | method function => function.Nests scope
  | expression value => value.Nests scope

/-- The parts of a member leave nested trees. -/
structure MemberFragment.Nests (scope : Scope) (member : MemberFragment) : Prop where
  key : member.key.Nests scope
  value : ∀ value ∈ member.value, value.Nests scope
  getter : ∀ function ∈ member.getter, function.Nests scope
  setter : ∀ function ∈ member.setter, function.Nests scope

/-- The parts of a class leave nested trees. -/
structure ClassFragment.Nests (scope : Scope) (definition : ClassFragment) : Prop where
  heritage : ∀ fragment ∈ definition.heritage, fragment.Nests scope
  elements : ∀ element ∈ definition.elements, StaysNested scope element.build

/-- The value of a binding leaves nested trees. -/
def BindingFragment.Nests (scope : Scope) (binding : BindingFragment) : Prop :=
  ∀ fragment ∈ binding.init, fragment.Nests scope

/-- The parts of a loop leave nested trees. -/
structure LoopFragment.Nests (scope : Scope) (loop : LoopFragment) : Prop where
  init : ∀ fragment ∈ loop.init, fragment.Nests scope
  test : ∀ fragment ∈ loop.test, fragment.Nests scope
  update : ∀ fragment ∈ loop.update, fragment.Nests scope
  body : loop.body.Nests scope

/-- The recovery of a statement leaves nested trees, and so do the parts of a loop. -/
structure StatementFragment.Nests (scope : Scope) (statement : StatementFragment) : Prop where
  build : StaysNested scope statement.build
  loop : ∀ loop ∈ statement.loop?, loop.Nests scope

variable {scope : Scope}

/-- A part that is missing leaves no tree. -/
theorem Fragment.nests_buildOptional {fragment : Option Fragment}
    (h : ∀ part ∈ fragment, part.Nests scope) : StaysNested scope (buildOptional fragment) := by
  cases fragment with
  | none => exact .pure trivial
  | some part => exact h part rfl

/-- A group is put around an operand that is nested, and covers it. -/
theorem Fragment.nests_buildBeside {operand : Fragment} (h : operand.Nests scope)
    (outer : Operator) (side : Operator.Side) :
    StaysNested scope (operand.buildBeside outer side) := by
  refine Recover.Nests.andThen h ?_
  split
  · exact .groupLastChild
  · exact .pure trivial

/-- As for operands, with the object of an access in the group. -/
theorem Fragment.nests_buildObject {operand : Fragment} (h : operand.Nests scope) :
    StaysNested scope operand.buildObject := by
  refine Recover.Nests.andThen h ?_
  split
  · exact .groupLastChild
  · exact .pure trivial

namespace Rule

/-! ## Identifiers and literals -/

/-- A name is a leaf, and a name that is passed over leaves none. -/
theorem nests_ident (name : Ident) : StaysNested scope (ident name) := by
  refine Nests.takeSkip.bind fun skips _ => ?_
  split
  · exact Nests.note _
  · exact Nests.attached ((Nests.identifier _ _ _).mono fun _ hnode => hnode.1)

/-- A leaf has nothing below it to lie around. -/
theorem nests_verbatim (range : Range) (token : TokenKind) (kind : Symbol → NodeKind) :
    Nests scope (verbatim range token kind) Node.Nested := by
  refine (Nests.rangeSpan _ _).bind fun span _ => (Nests.symbolOver _ _).bind fun symbol _ => ?_
  exact .pure (Node.nested_leaf _ _)

theorem nests_numeral (span : Span) : Nests scope (numeral span) Node.Nested :=
  (Nests.symbolOver _ _).bind fun _ _ => .pure (Node.nested_leaf _ _)

/-- With or without the sign in front of it, a number becomes a leaf. -/
theorem nests_number (range : Range) : Nests scope (number range) Node.Nested := by
  rw [number]
  refine (Nests.rangeSpan _ _).bind fun full _ => Nests.source.bind fun text _ => ?_
  dsimp only
  split
  · exact nests_numeral full
  · exact (Nests.spanBetween _ _).bind fun span _ => nests_numeral span

theorem nests_quoteShown (span : Span) (found : Option UInt8) :
    Nests scope (quoteShown span found) fun _ => True := by
  unfold quoteShown
  split
  · exact .pure trivial
  · split
    · exact (Nests.note _).andThen (.pure trivial)
    · exact .pure trivial

/-- The quotation marks are part of the leaf. -/
theorem nests_string (range : Range) (value : String) :
    Nests scope (string range value) Node.Nested := by
  rw [string]
  refine Nests.source.bind fun text _ => ?_
  split
  · exact Nests.throw
  · refine (Nests.rangeSpan _ _).bind fun span _ => (nests_quoteShown _ _).bind fun quote _ => ?_
    exact (Nests.intern _).andThen (.pure (Node.nested_leaf _ _))

/-- Every literal is attached as a leaf. -/
theorem nests_literal (range : Range) (value : Literal) :
    StaysNested scope (literal range value) := by
  rcases value with _ | value | flag | _ | _
  · exact Nests.attached (nests_number range)
  · exact Nests.attached (nests_string range value)
  · cases flag
    · exact Nests.attached (nests_verbatim range _ _)
    · exact Nests.attached (nests_verbatim range _ _)
  · exact Nests.attached (nests_verbatim range _ _)
  · exact Nests.attached (nests_verbatim range _ _)

/-! ## Collections -/

/-- A hole is filled by a leaf, which may lie anywhere. -/
theorem nests_element (hole : Nat) {fragment : Option Fragment}
    (h : ∀ part ∈ fragment, part.Nests scope) : StaysNested scope (element hole fragment) := by
  cases fragment with
  | some part => exact h part rfl
  | none => exact Nests.getStack.bind fun _ _ => Nests.attach (Node.nested_leaf _ _)

/-- The array is made to cover its elements when it is closed. -/
theorem nests_array (range : Range) {elements : List (Option Fragment)}
    (h : ∀ element ∈ elements, ∀ part ∈ element, part.Nests scope) :
    StaysNested scope (array range elements) := by
  refine (Nests.rangeSpan _ _).bind fun span _ => ?_
  refine (Nests.findAtOrAfter _ _ _ _).bind fun lbracket _ => ?_
  refine (Nests.findEndingAt _ _ _ _).bind fun rbracket _ => Nests.enterBare ?_
  refine (Nests.forM fun element he => nests_element _ (h element he)).andThen ?_
  refine Nests.getStack.bind fun stack _ => ?_
  dsimp only
  split
  · exact Nests.throw
  · exact .pure trivial

/-- The object is made to cover its members when it is closed. -/
theorem nests_object (range : Range) {members : List (Recover Unit)}
    (h : ∀ member ∈ members, StaysNested scope member) :
    StaysNested scope (object range members) := by
  refine (Nests.rangeSpan _ _).bind fun span _ => ?_
  refine (Nests.findAtOrAfter _ _ _ _).bind fun lbrace _ => ?_
  exact (Nests.findEndingAt _ _ _ _).bind fun rbrace _ => Nests.enterBare (Nests.forM h)

/-! ## Operators -/

/-- The children of a call that is dissolved are nested like the call. -/
theorem nests_flattenInvoke :
    StaysNested scope (modifyStack (·.modifyCurrent Node.flattenInvoke)) := by
  refine Nests.modifyStack fun stack hstack => hstack.modifyCurrent ?_
  have hchildren : ∀ child ∈ stack.current.children, child.Nested := hstack.children
  rw [Node.flattenInvoke]
  split
  · next child hchild =>
    have hcall : child.Nested := hchildren child (by simp [hchild])
    split
    · exact hcall.children
    · exact hchildren
  · exact hchildren

/-- Operand and group are closed before a call around them is dissolved. -/
theorem nests_operandBelow (operator : Operator) (form : UnaryForm) {operand : Fragment}
    (h : operand.Nests scope) : StaysNested scope (operandBelow operator form operand) := by
  refine (Fragment.nests_buildBeside h _ _).andThen ?_
  split
  · exact nests_flattenInvoke
  · exact .pure trivial

/-- The operator does not matter for the node: it covers its operand in any case. -/
theorem nests_unary (range : Range) (operator : Operator) {operand : Fragment}
    (h : operand.Nests scope) : StaysNested scope (unary range operator operand) := by
  rw [unary]
  refine (Nests.rangeSpan _ _).bind fun span _ => ?_
  split
  · exact Nests.throw
  · next spelling form _ =>
    have hnode : ∀ symbol : Symbol, StaysNested scope
        (enter (.leaf (form.nodeKind symbol) span) (operandBelow operator form operand)) :=
      fun symbol => Nests.enterBare (nests_operandBelow operator form h)
    dsimp only
    split
    · exact (Nests.findEndingAt _ _ _ _).bind fun symbol _ => hnode symbol
    · exact (Nests.findAtOrAfter _ _ _ _).bind fun symbol _ => hnode symbol

/-- To look for an operator closes no node. -/
theorem nests_operatorBetween (spelling : String) (start finish : Nat) :
    Nests scope (operatorBetween spelling start finish) fun _ => True := by
  unfold operatorBetween
  dsimp only
  split
  · exact Nests.findWord _ _ _ _
  · exact Nests.find _ _ _ _

/-- Both operands are below the node when it is closed. -/
theorem nests_binary (range : Range) (operator : Operator) {left right : Fragment}
    (hl : left.Nests scope) (hr : right.Nests scope) :
    StaysNested scope (binary range operator left right) := by
  refine (Nests.rangeSpan _ _).bind fun span _ => ?_
  split
  · exact Nests.throw
  · refine (nests_operatorBetween _ _ _).bind fun symbol _ => Nests.enterBare ?_
    exact (Fragment.nests_buildBeside hl _ _).andThen (Fragment.nests_buildBeside hr _ _)

/-- All three parts are below the node when it is closed. -/
theorem nests_conditional (range : Range) {test consequent alternate : Fragment}
    (ht : test.Nests scope) (hc : consequent.Nests scope) (ha : alternate.Nests scope) :
    StaysNested scope (conditional range test consequent alternate) := by
  refine (Nests.rangeSpan _ _).bind fun span _ => (Nests.find _ _ _ _).bind fun question _ => ?_
  refine (Nests.find _ _ _ _).bind fun colon _ => Nests.enterBare ?_
  refine (Fragment.nests_buildBeside ht _ _).andThen ?_
  exact (Fragment.nests_buildBeside hc _ _).andThen (Fragment.nests_buildBeside ha _ _)

/-! ## Calls and member access -/

/-- The list is a leaf until its arguments are there. -/
theorem nests_argumentParens (range : Range) (opening : Nat) :
    Nests scope (argumentParens range opening) fun list => ∀ node ∈ list, node.Nested := by
  refine (Nests.symbolAt _ _).bind fun lparen _ => ?_
  refine (Nests.findEndingAt _ _ _ _).bind fun rparen _ => ?_
  refine (Nests.mergeSpans _ _).bind fun span _ => .pure ?_
  rintro node ⟨⟩
  exact Node.nested_leaf _ _

/-- A list that is put on the shelf has no children yet. -/
theorem nests_argumentList (range : Range) (calleeEnd : Nat) (arguments : List Fragment) :
    Nests scope (argumentList range calleeEnd arguments) fun list =>
      ∀ node ∈ list, node.Nested := by
  cases arguments with
  | nil =>
    rw [argumentList]
    refine Nests.source.bind fun text _ => ?_
    cases text.find "(" calleeEnd range.finish with
    | none =>
      refine .pure ?_
      rintro node ⟨⟩
    | some opening => exact nests_argumentParens range opening
  | cons first rest =>
    rw [argumentList]
    exact Nests.source.bind fun text _ => (Nests.settle _ _).bind fun opening _ =>
      nests_argumentParens range opening

/-- The list is taken back and opened, to cover its arguments when it is closed. -/
theorem nests_call (range : Range) {callee : Fragment} {arguments : List Fragment}
    (hc : callee.Nests scope) (ha : ∀ argument ∈ arguments, argument.Nests scope) :
    StaysNested scope (call range callee arguments) := by
  refine (Nests.rangeSpan _ _).bind fun span _ => ?_
  refine (nests_argumentList _ _ _).bind fun list hlist => Nests.enterBare ?_
  cases list with
  | none => exact Fragment.nests_buildObject hc
  | some list =>
    -- the list is nested when it is put on the shelf, and so it is when it is taken back
    refine (Nests.defer (hlist list rfl)).bind fun ticket _ => ?_
    refine (Fragment.nests_buildObject hc).andThen ?_
    refine (Nests.takeDeferred ticket).bind fun taken htaken => ?_
    exact Nests.enter htaken.children (Nests.forM ha)

/-- The name may lie behind the range, but the access covers it. -/
theorem nests_access (range : Range) {base : Fragment} (property : String)
    (h : base.Nests scope) : StaysNested scope (access range base property) := by
  refine (Nests.rangeSpan _ _).bind fun span _ => (Nests.find _ _ _ _).bind fun dot _ => ?_
  refine (Nests.identifier _ _ _).bind fun name hname => Nests.enterBare ?_
  exact (Fragment.nests_buildObject h).andThen (Nests.attach hname.1)

/-- Object and index are below the node when it is closed. -/
theorem nests_index (range : Range) {base index : Fragment} (hb : base.Nests scope)
    (hi : index.Nests scope) : StaysNested scope (Rule.index range base index) := by
  refine (Nests.rangeSpan _ _).bind fun span _ => (Nests.find _ _ _ _).bind fun lbracket _ => ?_
  refine (Nests.findEndingAt _ _ _ _).bind fun rbracket _ => Nests.enterBare ?_
  exact (Fragment.nests_buildObject hb).andThen hi

/-! ## Plain statements -/

/-- Whose the semicolon is makes no difference to the spans. -/
theorem nests_withSemicolon {node : Node} (finish : Nat) (hn : node.Nested) :
    Nests scope (withSemicolon node finish) Node.Nested :=
  (Nests.terminates _ _).bind fun flag _ => .pure (hn.withSemicolon flag)

/-- The last child is nested, and it is replaced by itself with another mark. -/
theorem nests_expressionStatement {expression : Fragment} (h : expression.Nests scope) :
    StaysNested scope (expressionStatement expression) := by
  refine Nests.andThen h (Nests.getStack.bind fun stack hstack => ?_)
  split
  · exact .pure trivial
  · next statement hlast =>
    refine (nests_withSemicolon _ (hstack.lastChild statement hlast)).bind fun marked hmarked => ?_
    exact Nests.replaceLast hmarked

/-- An empty statement is a leaf. -/
theorem nests_emptyStatement (range : Range) : StaysNested scope (emptyStatement range) :=
  (Nests.rangeSpan _ _).bind fun _ _ => Nests.attach ((Node.nested_leaf _ _).withSemicolon true)

/-- The value is covered before the statement is attached. -/
theorem nests_throwStatement (range : Range) {value : Fragment} (h : value.Nests scope) :
    StaysNested scope (throwStatement range value) := by
  refine (Nests.rangeSpan _ _).bind fun span _ => (Nests.withinBare h).bind fun node hnode => ?_
  exact Nests.attached (nests_withSemicolon _ hnode)

/-- A `return` without a value covers a placeholder, a generated one is no node. -/
theorem nests_returnStatement (range : Range) {value : Option Fragment} (isGenerated : Bool)
    (h : ∀ part ∈ value, part.Nests scope) :
    StaysNested scope (returnStatement range value isGenerated) := by
  unfold returnStatement
  split
  · exact Fragment.nests_buildOptional h
  · refine (Nests.rangeSpan _ _).bind fun span _ => (Nests.withinBare ?_).bind fun node hnode => ?_
    · cases value with
      | some part => exact h part rfl
      | none => exact Nests.attach (Node.nested_leaf _ _)
    · exact Nests.attached (nests_withSemicolon _ hnode)

theorem nests_jumpLabel (range : Range) (keyword label : String) :
    Nests scope (jumpLabel range keyword label) fun _ => True :=
  Nests.source.bind fun _ _ => (Nests.settle _ _).bind fun offset _ =>
    (Nests.symbolAt _ offset).mono fun _ _ => trivial

/-- A jump keeps its label as a symbol, so it is a leaf. -/
theorem nests_jump (range : Range) (kind : JumpKind) (label : Option String) :
    StaysNested scope (jump range kind label) := by
  have hlabel : Nests scope (label.mapM (jumpLabel range kind.keyword)) fun _ => True := by
    cases label with
    | none => exact .pure trivial
    | some label => exact (nests_jumpLabel _ _ _).bind fun symbol _ => .pure trivial
  refine (Nests.rangeSpan _ _).bind fun span _ => hlabel.bind fun located _ => ?_
  refine (Nests.endsWithSemicolon _).bind fun flag _ => ?_
  exact Nests.attach ((Node.nested_leaf _ _).withSemicolon flag)

/-- Label and body are below the node when it is closed. -/
theorem nests_labelled (range : Range) (label : String) {body : BlockFragment}
    (h : body.Nests scope) : StaysNested scope (labelled range label body) := by
  refine (Nests.rangeSpan _ _).bind fun span _ => (Nests.find _ _ _ _).bind fun colon _ => ?_
  refine (Nests.identifier _ _ _).bind fun name hname => Nests.enterBare ?_
  exact (Nests.attach hname.1).andThen h

/-! ## Branching statements -/

/-- The place of a missing branch is taken by a leaf behind the last child. -/
theorem nests_ifElse (range : Range) {test : Fragment} {pass : BlockFragment}
    {fail : Option BlockFragment} (ht : test.Nests scope) (hp : pass.Nests scope)
    (hf : ∀ block ∈ fail, block.Nests scope) :
    StaysNested scope (ifElse range test pass fail) := by
  refine (Nests.rangeSpan _ _).bind fun span _ => (Nests.find _ _ _ _).bind fun lparen _ => ?_
  refine (Nests.find _ _ _ _).bind fun rparen _ => Nests.enterBare ?_
  refine Nests.andThen ht (Nests.andThen hp ?_)
  cases fail with
  | some fail => exact Nests.andThen (hf fail rfl) (Nests.expectChildren 3)
  | none =>
    refine Nests.getStack.bind fun stack _ => ?_
    exact (Nests.attach (Node.nested_leaf _ _)).andThen (Nests.expectChildren 3)

/-- Subject and clauses are below the node when it is closed. -/
theorem nests_switch (range : Range) {subject : Fragment} {cases : List (Range × Recover Unit)}
    (hs : subject.Nests scope) (hc : ∀ clause ∈ cases, StaysNested scope clause.2) :
    StaysNested scope (switch range subject cases) := by
  refine (Nests.rangeSpan _ _).bind fun span _ => (Nests.find _ _ _ _).bind fun lparen _ => ?_
  refine (Nests.find _ _ _ _).bind fun rparen _ => (Nests.find _ _ _ _).bind fun lbrace _ => ?_
  refine (Nests.findEndingAt _ _ _ _).bind fun rbrace _ => Nests.enterBare ?_
  exact Nests.andThen hs (Nests.forM hc)

/-- The span may end with the colon or with the last statement that is covered. -/
theorem nests_caseNode {clause : CaseFragment} (ht : ∀ test ∈ clause.test, test.Nests scope)
    (hs : ∀ statement ∈ clause.statements, statement.Nests scope) (kind : NodeKind)
    (colon : Symbol) : StaysNested scope (caseNode clause kind colon) := by
  refine (Nests.rangeSpan _ _).bind fun full _ => ?_
  refine (Nests.mergeSpans _ _).bind fun span _ => Nests.enterBare ?_
  refine (Fragment.nests_buildOptional ht).andThen ?_
  exact Nests.forM fun statement hstatement => (hs statement hstatement).build

/-- Both kinds of clauses are closed like any other node. -/
theorem nests_switchCase {clause : CaseFragment} (ht : ∀ test ∈ clause.test, test.Nests scope)
    (hs : ∀ statement ∈ clause.statements, statement.Nests scope) :
    StaysNested scope (switchCase clause) := by
  rw [switchCase]
  split
  · exact (Nests.find _ _ _ _).bind fun colon _ => nests_caseNode ht hs _ colon
  · exact (Nests.find _ _ _ _).bind fun colon _ => nests_caseNode ht hs _ colon

/-- Test and body are below the node when it is closed. -/
theorem nests_whileLoop (range : Range) {test : Fragment} {body : BlockFragment}
    (ht : test.Nests scope) (hb : body.Nests scope) :
    StaysNested scope (whileLoop range test body) := by
  refine (Nests.rangeSpan _ _).bind fun span _ => (Nests.find _ _ _ _).bind fun lparen _ => ?_
  refine (Nests.find _ _ _ _).bind fun rparen _ => Nests.enterBare ?_
  exact Nests.andThen ht hb

/-- The loop is closed before the mark is set, which moves nothing. -/
theorem nests_doLoop (range : Range) {test : Fragment} {body : BlockFragment}
    (ht : test.Nests scope) (hb : body.Nests scope) :
    StaysNested scope (doLoop range test body) := by
  refine (Nests.rangeSpan _ _).bind fun span _ => (Nests.find _ _ _ _).bind fun lparen _ => ?_
  refine (Nests.find _ _ _ _).bind fun rparen _ => ?_
  refine (Nests.withinBare (Nests.andThen hb ht)).bind fun node hnode => ?_
  exact (Nests.endsWithSemicolon _).bind fun flag _ => Nests.attach (hnode.withSemicolon flag)

/-- Object and body are below the node when it is closed. -/
theorem nests_withScope (range : Range) {subject : Fragment} {body : BlockFragment}
    (hs : subject.Nests scope) (hb : body.Nests scope) :
    StaysNested scope (withScope range subject body) := by
  refine (Nests.rangeSpan _ _).bind fun span _ => (Nests.find _ _ _ _).bind fun lparen _ => ?_
  refine (Nests.find _ _ _ _).bind fun rparen _ => Nests.enterBare ?_
  exact Nests.andThen hs hb

/-! ## `try` statements -/

/-- Exception and body are below the node when it is closed. -/
theorem nests_catchClause (range : Range) (exception : Ident) {body : BlockFragment}
    (h : body.Nests scope) : StaysNested scope (catchClause range exception body) := by
  refine (Nests.rangeSpan _ _).bind fun span _ => Nests.enterBare ?_
  exact (nests_ident exception).andThen h

/-- The clause reaches from its keyword, wherever that is, to the end of the block. -/
theorem nests_finallyClause (finallyStart : Nat) :
    StaysNested scope (finallyClause finallyStart) := by
  intro session hsession value later hrun
  rw [finallyClause, outcome_bind_ok (outcome_getStack scope session)] at hrun
  split at hrun
  · next body handler block hchildren =>
    obtain ⟨keyword, first, hkeyword, hrun⟩ := ok_of_bind hrun
    obtain ⟨span, second, hspan, hrun⟩ := ok_of_bind hrun
    rw [Recover.wrapChild] at hrun
    obtain ⟨made, hmade, rfl⟩ := ok_of_edit hrun
    obtain ⟨hfirst, -⟩ := Nests.findWord _ _ _ _ session hsession keyword first hkeyword
    obtain ⟨hsecond, hmerge⟩ := Nests.mergeSpans _ _ first hfirst span second hspan
    -- the block is still the third child when it is wrapped
    have hsame : second.stack = session.stack :=
      (Still.orFail _ _ _ _ hspan).trans (Still.findWord _ _ _ _ _ _ _ hkeyword)
    refine ⟨⟨Nests.nested_wrapChild hsecond.stack rfl ?_ hmade, hsecond.shelf⟩, trivial⟩
    rw [hsame, hchildren]
    rintro child ⟨⟩
    exact (Span.contains_of_merge hmerge).2
  · obtain ⟨stack, _, -, hthrow⟩ := ok_of_bind hrun
    cases hthrow

/-- Without a finalizer there is nothing to wrap. -/
theorem nests_finallyLast (finalizer : Option BlockFragment) :
    StaysNested scope (finallyLast finalizer) := by
  cases finalizer with
  | none => exact .pure trivial
  | some finalizer => exact nests_finallyClause _

/-- The place of a missing finalizer is taken by a leaf. -/
theorem nests_finallyBlock {finalizer : Option BlockFragment}
    (h : ∀ block ∈ finalizer, block.Nests scope) (last : Nat) :
    StaysNested scope (finallyBlock finalizer last) := by
  cases finalizer with
  | none => exact Nests.attach (Node.nested_leaf _ _)
  | some finalizer => exact h finalizer rfl

/-- To put the children in order leaves each of them as it is. -/
theorem nests_tryEnd (finalizer : Option BlockFragment) : StaysNested scope (tryEnd finalizer) :=
  (Nests.expectChildren 3).andThen ((Nests.reorder _).andThen (nests_finallyLast finalizer))

/-- The statement covers its parts in the end, in whatever order they were attached. -/
theorem nests_tryCatch (range : Range) {body : BlockFragment} {catches : List (Recover Unit)}
    {finalizer : Option BlockFragment} (hb : body.Nests scope)
    (hc : ∀ clause ∈ catches, StaysNested scope clause)
    (hf : ∀ block ∈ finalizer, block.Nests scope) :
    StaysNested scope (tryCatch range body catches finalizer) := by
  rw [tryCatch]
  refine (Nests.note _).andThen ((Nests.rangeSpan _ _).bind fun span _ => ?_)
  split
  · exact Nests.throw
  · refine Nests.enterBare ((nests_finallyBlock hf span.last).andThen (Nests.andThen hb ?_))
    refine (Nests.forM hc).andThen ?_
    split
    · refine Nests.getStack.bind fun stack _ => ?_
      exact (Nests.attach (Node.nested_leaf _ _)).andThen (nests_tryEnd finalizer)
    · exact nests_tryEnd finalizer

/-! ## Loops -/

/-- The place of a missing clause is taken by a leaf. -/
theorem nests_clause {fragment : Option Fragment} (placeholder : Nat)
    (h : ∀ part ∈ fragment, part.Nests scope) :
    StaysNested scope (clause fragment placeholder) := by
  cases fragment with
  | some part => exact h part rfl
  | none => exact Nests.attach (Node.nested_leaf _ _)

/-- Declarations that come from outside of the loop have to be nested already. -/
theorem nests_firstClause {declaration : Option Node} {init : Option Fragment} (placeholder : Nat)
    (hd : ∀ node ∈ declaration, node.Nested) (h : ∀ part ∈ init, part.Nests scope) :
    StaysNested scope (firstClause declaration init placeholder) := by
  cases declaration with
  | some node => exact Nests.attach (hd node rfl)
  | none => exact nests_clause _ h

/-- A body that leaves no node is replaced by a leaf. -/
theorem nests_loopBody {body : BlockFragment} (h : body.Nests scope) :
    StaysNested scope (loopBody body) := by
  refine Nests.getStack.bind fun before _ => Nests.andThen h (Nests.getStack.bind fun after _ => ?_)
  split
  · exact (Nests.rangeSpan _ _).bind fun span _ => Nests.attach (Node.nested_leaf _ _)
  · exact .pure trivial

section Loops

variable {loop : LoopFragment} {declaration : Option Node}

/-- All four parts are below the loop when it is closed. -/
theorem nests_classicLoop (span : Span) (lparen : Symbol) (initEnd : Nat) (h : loop.Nests scope)
    (hd : ∀ node ∈ declaration, node.Nested) :
    StaysNested scope (classicLoop loop declaration span lparen initEnd) := by
  refine (Nests.find _ _ _ _).bind fun semi1 _ => (Nests.find _ _ _ _).bind fun semi2 _ => ?_
  refine (Nests.findLast _ _ _ _).bind fun rparen _ => Nests.enterBare ?_
  refine (nests_firstClause _ hd h.init).andThen ((nests_clause _ h.test).andThen ?_)
  refine (nests_clause _ h.update).andThen ((nests_loopBody h.body).andThen ?_)
  exact Nests.expectChildren 4

/-- All three parts are below the loop when it is closed. -/
theorem nests_rangingLoop (span : Span) (lparen : Symbol) (initEnd : Nat) (h : loop.Nests scope)
    (hd : ∀ node ∈ declaration, node.Nested) :
    StaysNested scope (rangingLoop loop declaration span lparen initEnd) := by
  refine (Nests.findWord _ _ _ _).bind fun keyword _ => ?_
  refine (Nests.findLast _ _ _ _).bind fun rparen _ => Nests.enterBare ?_
  refine (nests_firstClause _ hd h.init).andThen ((nests_clause _ h.update).andThen ?_)
  exact (nests_loopBody h.body).andThen (Nests.expectChildren 3)

/-- The declarations in the header are handed on to each kind of loop. -/
theorem nests_forLoop (h : loop.Nests scope) (hd : ∀ node ∈ declaration, node.Nested) :
    StaysNested scope (forLoop loop declaration) := by
  refine (Nests.rangeSpan _ _).bind fun span _ => (Nests.find _ _ _ _).bind fun lparen _ => ?_
  dsimp only
  split
  · exact nests_classicLoop _ _ _ h hd
  · exact nests_rangingLoop _ _ _ h hd
  · exact nests_rangingLoop _ _ _ h hd

end Loops

/-! ## Functions -/

/-- The node of a computed key goes from bracket to bracket, and covers what is between. -/
theorem nests_key {member : MemberFragment} (h : member.Nests scope) :
    StaysNested scope (key member) := by
  unfold key
  split
  · exact h.key
  · refine (Nests.findLast _ _ _ _).bind fun lbracket _ => ?_
    refine (Nests.find _ _ _ _).bind fun rbracket _ => ?_
    exact (Nests.mergeSpans _ _).bind fun span _ => Nests.enterBare h.key

theorem nests_arrowParens (function : FunctionFragment) :
    Nests scope (arrowParens function) fun _ => True := by
  refine Nests.source.bind fun text _ => (Nests.settle _ _).bind fun arrow _ => ?_
  split
  · exact .pure trivial
  · exact (Nests.settle _ _).bind fun rparen _ => .pure trivial

theorem nests_functionParens (function : FunctionFragment) (nameEnd : Nat) :
    Nests scope (functionParens function nameEnd) fun _ => True :=
  Nests.source.bind fun _ _ => (Nests.settle _ _).bind fun _ _ =>
    (Nests.settle _ _).bind fun _ _ => .pure trivial

/-- Whatever its span, the list has no children when it is made. -/
theorem nests_parameterNode (function : FunctionFragment) (parens : Option (Nat × Nat)) :
    Nests scope (parameterNode function parens) fun node => node.children = [] := by
  cases parens with
  | some places =>
    refine (Nests.symbolAt _ _).bind fun lparen _ => (Nests.symbolAt _ _).bind fun rparen _ => ?_
    exact (Nests.mergeSpans _ _).bind fun span _ => .pure rfl
  | none =>
    unfold parameterNode
    dsimp only
    split
    · exact (Nests.rangeSpan _ _).bind fun span _ => .pure rfl
    · exact .pure rfl

/-- The list has no children until it is opened for the parameters. -/
theorem nests_parameterList (function : FunctionFragment) (nameEnd : Nat) :
    Nests scope (parameterList function nameEnd) fun node => node.children = [] := by
  unfold parameterList
  dsimp only
  split
  · exact (nests_arrowParens function).bind fun parens _ => nests_parameterNode function parens
  · refine (nests_functionParens function nameEnd).bind fun parens _ => ?_
    exact nests_parameterNode function (some parens)

/-- The dots stand in front of the name, so the node ends with the name unless that is empty. -/
theorem nests_restElement {parameter : Ident} {ellipsis : Option Symbol}
    (h : parameter.range.start < parameter.range.finish)
    (hellipsis : ∀ symbol ∈ ellipsis, symbol.span.start < parameter.range.start) :
    StaysNested scope (restElement parameter ellipsis) := by
  refine (Nests.rangeSpan _ _).bind ?_
  rintro _ rfl
  refine (Nests.identifier _ _ _).bind fun name hname => Nests.attach ?_
  refine Node.nested_single ?_ hname.1
  rw [hname.2, Span.contains_iff]
  simp only [Span.ofBounds]
  cases ellipsis with
  | none =>
    rw [Option.map_none, Option.getD_none]
    exact ⟨Nat.le_refl _, Nat.le_refl _⟩
  | some symbol =>
    have hfront : symbol.span.start < parameter.range.start := hellipsis symbol rfl
    rw [Option.map_some, Option.getD_some]
    omega

/-- Dots that are located stand in front of the name, since the window ends there. -/
theorem nests_restParameter {parameter : Ident}
    (h : parameter.range.start < parameter.range.finish) :
    StaysNested scope (restParameter parameter) := by
  rw [restParameter]
  refine Nests.source.bind fun source _ => Nests.gapStart.bind fun windowStart _ => ?_
  refine (Nests.settle? _).bind fun found hfound => ?_
  cases found with
  | none =>
    refine nests_restElement h ?_
    rintro symbol ⟨⟩
  | some offset =>
    refine (Nests.symbolAt _ _).bind fun symbol hsymbol => nests_restElement h ?_
    rintro _ ⟨⟩
    rw [hsymbol]
    exact (Source.findLast_bounds (Source.locateLast_eq_ok_iff.1 (hfound offset rfl))).2

/-- Name and value are below the node when it is closed. -/
theorem nests_defaultParameter (parameter : Ident) {value : Fragment} (h : value.Nests scope) :
    StaysNested scope (defaultParameter parameter value) := by
  refine (Nests.find _ _ _ _).bind fun equal _ => (Nests.rangeSpan _ _).bind fun span _ => ?_
  refine (Nests.identifier _ _ _).bind fun name hname => Nests.enterBare ?_
  exact (Nests.attach hname.1).andThen h

/-- Only a rest parameter is put together by hand, and for it the name must not be empty. -/
theorem nests_parameter {function : FunctionFragment} {parameter : Ident}
    (h : function.Nests scope) (hparameter : parameter ∈ function.parameters) :
    StaysNested scope (Rule.parameter function parameter) := by
  have hname : StaysNested scope (do
      attach (← identifier parameter.range.start parameter.range.finish parameter.name)) :=
    (Nests.identifier _ _ _).bind fun _ hname => Nests.attach hname.1
  refine parameter_cases (fun hrest => ?_)
    (fun value hvalue => nests_defaultParameter parameter (h.defaults _ hvalue))
    ((Nests.note _).andThen hname) hname
  have hcollects := h.collects parameter hparameter
  rw [Demand.collects, hrest, Bool.not_true, Bool.false_or, decide_eq_true_eq] at hcollects
  exact nests_restParameter hcollects

/-- The list is opened and made to cover its parameters. -/
theorem nests_parameters {function : FunctionFragment} (nameEnd : Nat)
    (h : function.Nests scope) : StaysNested scope (parameters function nameEnd) := by
  refine (nests_parameterList function nameEnd).bind fun list hlist => Nests.enter ?_ ?_
  · rw [hlist]
    exact List.forall_mem_nil _
  · exact Nests.forM fun parameter hparameter => nests_parameter h hparameter

theorem nests_functionKeyword (nameStart : Nat) :
    Nests scope (functionKeyword nameStart) fun _ => True :=
  Nests.source.bind fun _ _ => Nests.gapStart.bind fun _ _ => Nests.settle _ _

/-- To look for the start of a function closes no node. -/
theorem nests_functionStart (function : FunctionFragment) (member : Option MemberFragment) :
    Nests scope (functionStart function member) fun _ => True := by
  cases member with
  | some member => exact .pure trivial
  | none =>
    unfold functionStart
    dsimp only
    split
    · exact .pure trivial
    · split
      · exact nests_functionKeyword _
      · exact .pure trivial

/-- The place of a missing name is taken by a leaf. -/
theorem nests_functionName (function : FunctionFragment) {member : Option MemberFragment}
    (h : ∀ part ∈ member, part.Nests scope) :
    StaysNested scope (functionName function member) := by
  cases member with
  | some member => exact nests_key (h member rfl)
  | none =>
    unfold functionName
    dsimp only
    split
    · exact .pure trivial
    · split
      · exact Nests.attach (Node.nested_leaf _ _)
      · exact (Nests.identifier _ _ _).bind fun _ hname => Nests.attach hname.1

/-- Name, parameters and body are below the node when it is closed. -/
theorem nests_functionNode {function : FunctionFragment} {member : Option MemberFragment}
    (hf : function.Nests scope) (hm : ∀ part ∈ member, part.Nests scope) :
    Nests scope (functionNode function member) Node.Nested := by
  refine (nests_functionStart function member).bind fun start _ => ?_
  refine (Nests.rangeSpan _ _).bind fun span _ => Nests.withinBare ?_
  exact (nests_functionName function hm).andThen ((nests_parameters _ hf).andThen hf.body)

/-! ## Exported declarations -/

/-- An export statement begins in front of its declaration or with it, and ends with it. -/
theorem nests_wrapExport {node : Node} (isDefault : Bool) (windowStart : Nat) (hn : node.Nested) :
    Nests scope (wrapExport node isDefault windowStart) Node.Nested := by
  refine (Nests.findLastWord? _ _ _ _).bind fun keyword hkeyword => ?_
  refine (Nests.spanBetween _ _).bind ?_
  rintro _ rfl
  have hstart : (keyword.map (·.span.start)).getD node.start ≤ node.start := by
    cases keyword with
    | none => exact Nat.le_refl _
    | some symbol => exact (hkeyword symbol rfl).le
  refine .pure (Node.nested_single ?_ (hn.withSemicolon false))
  exact Span.contains_iff.2 ⟨hstart, Nat.le_refl _⟩

/-- A declaration that is not wrapped stays as it is. -/
theorem nests_exportIf (status : ExportStatus) {node : Node} (windowStart : Nat)
    (hn : node.Nested) : Nests scope (exportIf status node windowStart) Node.Nested := by
  unfold exportIf
  split
  · exact nests_wrapExport _ _ hn
  · exact .pure hn

/-- The function is closed before it is wrapped. -/
theorem nests_functionExpression {function : FunctionFragment} (h : function.Nests scope) :
    StaysNested scope (functionExpression function) := by
  have hnone : ∀ part ∈ (none : Option MemberFragment), part.Nests scope := by
    rintro part ⟨⟩
  refine (Nests.note _).andThen (Nests.gapStart.bind fun windowStart _ => ?_)
  refine (nests_functionNode h hnone).bind fun node hnode => ?_
  dsimp only
  split
  · refine (Nests.exportStatus _).bind fun status _ => ?_
    refine (nests_exportIf status _ hnode).bind fun wrapped hwrapped => ?_
    exact (Nests.attach hwrapped).andThen Nests.skipNextName
  · rw [pure_bind]
    refine (nests_exportIf .hidden _ hnode).bind fun wrapped hwrapped => ?_
    exact (Nests.attach hwrapped).andThen (.pure trivial)

/-! ## Members -/

/-- A shorthand covers its key, any other pair its key and its value. -/
theorem nests_pair {member : MemberFragment} {value : Fragment} (hm : member.Nests scope)
    (hv : value.Nests scope) : StaysNested scope (pair member value) := by
  refine (Nests.rangeSpan _ _).bind fun span _ => ?_
  split
  · exact Nests.enterBare hm.key
  · refine (Nests.find _ _ _ _).bind fun colon _ => Nests.enterBare ?_
    exact (nests_key hm).andThen hv

theorem nests_accessorRange (member : MemberFragment) (function : FunctionFragment)
    (accessor : Accessor) (ownsKey : Bool) :
    Nests scope (accessorRange member function accessor ownsKey) fun _ => True := by
  unfold accessorRange
  dsimp only
  split
  · exact .pure trivial
  · refine Nests.source.bind fun _ _ => Nests.gapStart.bind fun _ _ => ?_
    exact (Nests.settle _ _).bind fun _ _ => .pure trivial

/-- The parts of the function are nested like the function, whose node is given up. -/
theorem nests_accessorParts {function : FunctionFragment} (accessor : Accessor)
    (h : function.Nests scope) : StaysNested scope (accessorParts function accessor) := by
  have hnone : ∀ part ∈ (none : Option MemberFragment), part.Nests scope := by
    rintro part ⟨⟩
  refine (nests_functionNode h hnone).bind fun node hnode => ?_
  have hpart : ∀ part ∈ node.children.reverse, StaysNested scope (attach part) :=
    fun part hpart => Nests.attach (hnode.children part (List.mem_reverse.1 hpart))
  have hbody : StaysNested scope (node.children.reverse.head?.toList.forM attach) := by
    refine Nests.forM fun part hmem => hpart part ?_
    exact List.mem_of_mem_head? (Option.mem_toList.1 hmem)
  dsimp only
  split
  · refine (Nests.forM fun part hmem => hpart part ?_).andThen hbody
    exact List.mem_of_mem_drop (List.mem_of_mem_head? (Option.mem_toList.1 hmem))
  · exact hbody

/-- The accessor covers its key or name and the parts of its function. -/
theorem nests_accessor {member : MemberFragment} {function : FunctionFragment}
    (accessor : Accessor) (ownsKey : Bool) (hm : member.Nests scope) (hf : function.Nests scope) :
    StaysNested scope (Rule.accessor member function accessor ownsKey) := by
  rw [Rule.accessor]
  refine (nests_accessorRange _ _ _ _).bind fun range _ => ?_
  refine (Nests.rangeSpan _ _).bind fun span _ => Nests.enterBare ?_
  dsimp only
  split
  · exact (nests_key hm).andThen (nests_accessorParts accessor hf)
  · refine (Nests.identifier _ _ _).bind fun name hname => ?_
    exact (Nests.attach hname.1).andThen (nests_accessorParts accessor hf)

/-- The accessors of a member become neighbours, none is below the other. -/
theorem nests_accessors {member : MemberFragment} (h : member.Nests scope) :
    StaysNested scope (accessors member) := by
  rw [accessors]
  refine Nests.forM fun written hwritten => nests_accessor _ _ h ?_
  have hmem := MemberFragment.mem_accessors (List.fst_mem_of_mem_zipIdx hwritten)
  exact hmem.elim (h.getter _) (h.setter _)

/-- A method is attached as it was closed, the others are closed here. -/
theorem nests_member {member : MemberFragment} (h : member.Nests scope) :
    StaysNested scope (Rule.member member) := by
  unfold Rule.member
  split
  · exact nests_accessors h
  · split
    · next function hvalue =>
      refine Nests.attached (nests_functionNode (h.value (.method function) hvalue) ?_)
      rintro part ⟨⟩
      exact h
    · next value hvalue => exact nests_pair h (h.value (.expression value) hvalue)
    · exact (Nests.rangeSpan _ _).bind fun span _ => Nests.throw

/-! ## Classes -/

/-- The body covers its elements, even if one of them lies outside of the braces. -/
theorem nests_classBody {definition : ClassFragment} (h : definition.Nests scope) :
    StaysNested scope (classBody definition) := by
  refine (Nests.find _ _ _ _).bind fun lbrace _ => ?_
  refine (Nests.findEndingAt _ _ _ _).bind fun rbrace _ => ?_
  refine (Nests.mergeSpans _ _).bind fun span _ => Nests.enterBare ?_
  exact Nests.forM fun element hmem => h.elements element (List.mem_mergeSort.1 hmem)

/-- The name is moved to the front before the class is closed. -/
theorem nests_classNode {definition : ClassFragment} (name : Option Ident)
    (h : definition.Nests scope) : Nests scope (classNode definition name) Node.Nested := by
  refine (Nests.note _).andThen ((Nests.rangeSpan _ _).bind fun span _ => Nests.withinBare ?_)
  refine (Fragment.nests_buildOptional h.heritage).andThen ((nests_classBody h).andThen ?_)
  cases name with
  | none => exact .pure trivial
  | some name =>
    refine (Nests.identifier _ _ _).bind fun node hnode => (Nests.attach hnode.1).andThen ?_
    refine Nests.getStack.bind fun stack _ => ?_
    split
    · exact Nests.reorder _
    · exact Nests.reorder _

/-- The class is attached as it was closed. -/
theorem nests_classExpression {definition : ClassFragment} (h : definition.Nests scope) :
    StaysNested scope (classExpression definition) :=
  Nests.attached (nests_classNode _ h)

/-! ## Bindings -/

/-- Value and name become neighbours. -/
theorem nests_valueAndName {binding : BindingFragment} (h : binding.Nests scope) :
    StaysNested scope (valueAndName binding) :=
  (Fragment.nests_buildOptional h).andThen (nests_ident _)

/-- Name and value change places, or a leaf takes the place of the value. -/
theorem nests_declarationParts {binding : BindingFragment} (span : Span)
    (h : binding.Nests scope) : StaysNested scope (declarationParts binding span) := by
  refine (nests_valueAndName h).andThen (Nests.getStack.bind fun stack _ => ?_)
  split
  · exact Nests.reorder _
  · exact Nests.attach (Node.nested_leaf _ _)
  · exact Nests.throw

/-- The declarator covers its name and its value. -/
theorem nests_declaration {binding : BindingFragment} (h : binding.Nests scope) :
    Nests scope (declaration binding) Node.Nested := by
  refine (Nests.rangeSpan _ _).bind fun span _ => ?_
  have hnode : ∀ equal : Option Symbol, Nests scope
      (within (.leaf (.declaration equal) span) (declarationParts binding span)) Node.Nested :=
    fun _ => Nests.withinBare (nests_declarationParts span h)
  split
  · exact (Nests.find _ _ _ _).bind fun equal _ => hnode (some equal)
  · exact hnode none

/-- The span of the statement is merged with that of the declarator. -/
theorem nests_addDeclarator {declarator node : Node} (hd : declarator.Nested) (hn : node.Nested) :
    Nests scope (addDeclarator declarator node) fun made =>
      made.Nested ∧ node.span.merge declarator.span = .ok made.span := by
  refine (Nests.mergeSpans _ _).bind fun span hspan => .pure ⟨?_, hspan⟩
  obtain ⟨hnode, hdeclarator⟩ := Span.contains_of_merge hspan
  refine Node.nested_iff.2 (Node.Around.append ?_ ?_)
  · exact (Node.nested_iff.1 hn).widen hnode
  · exact List.forall_mem_singleton.2 ⟨hdeclarator, hd⟩

/-- An export statement grows as far as the declarations that it holds. -/
theorem nests_extendVariables {statement declarator : Node} (hs : statement.Nested)
    (hd : declarator.Nested) :
    Nests scope (extendVariables statement declarator) Node.Nested := by
  unfold extendVariables
  split
  · exact (nests_addDeclarator hd hs).mono fun _ hmade => hmade.1
  · refine (Nests.mergeSpans _ _).bind fun span hspan => ?_
    have hstatement : span.contains statement.span = true := (Span.contains_of_merge hspan).1
    have hlast : ∀ child ∈ statement.lastChild?.toList,
        Nests scope (addDeclarator declarator child) fun made =>
          span.contains made.span = true ∧ made.Nested := by
      intro child hchild
      have hmem : child ∈ statement.children :=
        List.mem_of_getLast? (Option.mem_toList.1 hchild)
      obtain ⟨hinside, hnested⟩ := Node.nested_iff.1 hs child hmem
      refine (nests_addDeclarator hd hnested).mono fun made hmade => ⟨?_, hmade.1⟩
      exact Span.contains_merge hinside hspan hmade.2
    refine (Nests.mapM hlast).bind fun exported hexported => .pure (Node.nested_iff.2 ?_)
    refine Node.Around.append (fun child hchild => ?_) hexported
    exact (Node.nested_iff.1 hs).widen hstatement child (List.dropLast_subset _ hchild)

/-- The statement that is extended was nested, and so is what replaces it. -/
theorem nests_continuedVariable {binding : BindingFragment} (h : binding.Nests scope) :
    StaysNested scope (continuedVariable binding) := by
  refine (nests_declaration h).bind fun declarator hdeclarator => ?_
  refine (Nests.terminates _ _).bind fun terminated _ => Nests.getStack.bind fun stack hstack => ?_
  split
  · next statement hlast =>
    split
    · have hstatement : statement.Nested := hstack.lastChild statement hlast
      refine (nests_extendVariables hstatement hdeclarator).bind fun extended hextended => ?_
      exact Nests.replaceLast (hextended.withSemicolon terminated)
    · exact Nests.throw
  · exact Nests.throw

/-- The statement begins with its keyword or with its declarator, and ends with the latter. -/
theorem nests_variableStatement {binding : BindingFragment} (keywordStart windowStart : Nat)
    (h : binding.Nests scope) :
    StaysNested scope (variableStatement binding keywordStart windowStart) := by
  refine (Nests.symbolAt _ _).bind fun keyword _ => ?_
  refine (nests_declaration h).bind fun declarator hdeclarator => ?_
  refine (Nests.spanBetween _ _).bind ?_
  rintro _ rfl
  have hnode : ∀ flag : Bool, Node.Nested ⟨.var keyword,
      ⟨min keywordStart declarator.start, declarator.last⟩, [declarator], flag⟩ := by
    intro flag
    refine Node.nested_single ?_ hdeclarator
    exact Span.contains_iff.2 ⟨Nat.min_le_right _ _, Nat.le_refl _⟩
  refine (Nests.terminates _ _).bind fun terminated _ => ?_
  refine (Nests.exportStatus _).bind fun status _ => ?_
  exact Nests.attached (nests_exportIf status _ (hnode terminated))

theorem nests_ownKeyword (keyword : String) (windowStart nameStart : Nat) :
    Nests scope (ownKeyword keyword windowStart nameStart) fun _ => True := by
  refine Nests.source.bind fun text _ => ?_
  dsimp only
  split
  · exact .pure trivial
  · exact .pure trivial

/-- A declarator goes into a new statement or into the one before. -/
theorem nests_variableBinding {binding : BindingFragment} (h : binding.Nests scope) :
    StaysNested scope (variableBinding binding) := by
  refine Nests.gapStart.bind fun windowStart _ => ?_
  refine (nests_ownKeyword _ _ _).bind fun keyword _ => ?_
  cases keyword with
  | some offset => exact nests_variableStatement _ _ h
  | none =>
    refine Nests.getStack.bind fun stack _ => ?_
    split
    · exact nests_continuedVariable h
    · refine Nests.source.bind fun text _ => (Nests.settle _ _).bind fun offset _ => ?_
      exact nests_variableStatement _ _ h

/-- The export statement is opened around its value and covers it. -/
theorem nests_defaultExport {binding : BindingFragment} (h : binding.Nests scope) :
    StaysNested scope (defaultExport binding) := by
  unfold defaultExport
  split
  · exact (Nests.rangeSpan _ _).bind fun span _ => Nests.throw
  · next init hinit =>
    refine Nests.gapStart.bind fun windowStart _ => ?_
    refine (Nests.findLastWord? _ _ _ _).bind fun keyword _ => ?_
    refine (Nests.rangeSpan _ _).bind fun span _ => ?_
    refine (Nests.withinBare (h init hinit)).bind fun node hnode => ?_
    refine Nests.takeSkip.bind fun _ _ => (Nests.terminates _ _).bind fun flag _ => ?_
    exact Nests.attach (hnode.withSemicolon flag)

/-- The class is closed before it is wrapped. -/
theorem nests_exportedClass {definition : ClassFragment} (h : definition.Nests scope)
    (windowStart : Nat) (status : ExportStatus) (name : Option Ident) :
    StaysNested scope (exportedClass definition windowStart status name) :=
  (nests_classNode name h).bind fun _ hnode => Nests.attached (nests_exportIf status _ hnode)

/-- The name matters for the status only, the class is wrapped in either case. -/
theorem nests_classDeclaration (name : Ident) {definition : ClassFragment}
    (h : definition.Nests scope) : StaysNested scope (classDeclaration name definition) := by
  rw [classDeclaration]
  refine (Nests.note _).andThen (Nests.gapStart.bind fun windowStart _ => ?_)
  split
  · exact nests_exportedClass h _ _ _
  · exact (Nests.exportStatus _).bind fun status _ => nests_exportedClass h _ _ _

/-- Whichever way the binding goes, what it leaves is nested. -/
theorem nests_binding {binding : BindingFragment} (h : binding.Nests scope) :
    StaysNested scope (Rule.binding binding) := by
  refine (Nests.note _).andThen ?_
  split
  · exact nests_defaultExport h
  · split
    · exact nests_valueAndName h
    · exact nests_variableBinding h

/-! ## Blocks -/

section Blocks

variable {statements : List StatementFragment}

/-- The block covers its statements when it is closed. -/
theorem nests_bracedBlock (range : Range) (h : ∀ statement ∈ statements, statement.Nests scope) :
    StaysNested scope (bracedBlock range statements) := by
  refine (Nests.rangeSpan _ _).bind fun _ _ => ?_
  refine (Nests.findAtOrAfter _ _ _ _).bind fun lbrace _ => ?_
  refine (Nests.findEndingAt _ _ _ _).bind fun rbrace _ => ?_
  refine (Nests.mergeSpans _ _).bind fun span _ => Nests.enterBare ?_
  exact Nests.forM fun statement hmem => (h statement hmem).build

/-- The block leaves what its last statement leaves. -/
theorem nests_parameterBlock (range : Range)
    (h : ∀ statement ∈ statements, statement.Nests scope) :
    StaysNested scope (parameterBlock range statements) := by
  unfold parameterBlock
  split
  · next body hlast => exact (h body (List.mem_of_getLast? hlast)).build
  · exact (Nests.rangeSpan _ _).bind fun span _ => Nests.throw

theorem nests_expectVar (node : Node) : StaysNested scope (expectVar node) := by
  unfold expectVar
  split
  · exact Nests.throw
  · exact .pure trivial

/-- The span of the combined declarations grows with each declarator that is put among them. -/
theorem nests_appendDeclarators {combined node : Node} (hc : combined.Nested) (hn : node.Nested) :
    Nests scope (appendDeclarators combined node) Node.Nested := by
  refine (nests_expectVar node).andThen ?_
  refine (Nests.mergeAll node.children combined.span).bind fun span hspan => .pure ?_
  obtain ⟨hcombined, hchildren⟩ := hspan
  refine Node.nested_iff.2 (Node.Around.append ?_ fun child hchild => ?_)
  · exact (Node.nested_iff.1 hc).widen hcombined
  · exact ⟨hchildren child hchild, hn.children child hchild⟩

/-- The declarators lie below the first statement, whose span has grown around them. -/
theorem nests_combineDeclarations {nodes : List Node} (h : ∀ node ∈ nodes, node.Nested) :
    Nests scope (combineDeclarations nodes) fun combined => ∀ node ∈ combined, node.Nested := by
  cases nodes with
  | nil =>
    refine .pure ?_
    rintro node ⟨⟩
  | cons first rest =>
    obtain ⟨hfirst, hrest⟩ := List.forall_mem_cons.1 h
    refine (nests_expectVar first).andThen ?_
    refine Nests.bind (Nests.foldlM hfirst fun node hmem combined hcombined =>
      nests_appendDeclarators hcombined (hrest node hmem)) fun combined hcombined => .pure ?_
    rintro node ⟨⟩
    refine Node.nested_iff.2 fun child hchild => ?_
    obtain ⟨other, hother, rfl⟩ := List.mem_map.1 hchild
    obtain ⟨hinside, hnested⟩ := Node.nested_iff.1 hcombined other hother
    exact ⟨hinside, hnested.withSemicolon false⟩

/-- What was collected for the header is nested, since it has been below a node. -/
theorem nests_declaringLoop {loop : LoopFragment} {declarations : List StatementFragment}
    (hl : loop.Nests scope) (h : ∀ statement ∈ declarations, statement.Nests scope) :
    StaysNested scope (declaringLoop loop declarations) := by
  refine (Nests.note _).andThen ((Nests.rangeSpan _ _).bind fun span _ => ?_)
  refine (Nests.withinBare (Nests.forM fun statement hmem => (h statement hmem).build)).bind ?_
  intro collected hcollected
  refine (nests_combineDeclarations hcollected.children).bind fun combined hcombined => ?_
  exact nests_forLoop hl hcombined

/-- Some statements are left beside the loop and others go into its header. -/
theorem nests_syntheticBlock (h : ∀ statement ∈ statements, statement.Nests scope) :
    StaysNested scope (syntheticBlock statements) := by
  unfold syntheticBlock
  split
  · exact Nests.forM fun statement hmem => (h statement hmem).build
  · next loop hloop =>
    obtain ⟨last, hlast, hlastLoop⟩ := Option.bind_eq_some_iff.1 hloop
    have hl : loop.Nests scope := (h last (List.mem_of_getLast? hlast)).loop loop hlastLoop
    have hrest : ∀ statement ∈ statements.dropLast, statement.Nests scope :=
      fun statement hmem => h statement (List.dropLast_subset _ hmem)
    refine (Nests.forM fun statement hmem => ?_).andThen ?_
    · exact (hrest statement (List.mem_of_mem_take hmem)).build
    · split
      · refine nests_forLoop hl ?_
        rintro node ⟨⟩
      · exact nests_declaringLoop hl fun statement hmem =>
          hrest statement (List.mem_of_mem_drop hmem)

/-- Only a block in braces has a node of its own. -/
theorem nests_block (range : Range) (kind : BlockKind)
    (h : ∀ statement ∈ statements, statement.Nests scope) :
    StaysNested scope (block range kind statements) := by
  cases kind with
  | braced => exact nests_bracedBlock range h
  | parameter => exact nests_parameterBlock range h
  | synthetic => exact nests_syntheticBlock h

end Blocks

end Rule

end Concretion
