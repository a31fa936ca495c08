import Concretion.Proofs.Demand
import Concretion.Proofs.Skipping
import Concretion.Recovery.Rule.Branch
import Concretion.Recovery.Rule.Collection
import Concretion.Recovery.Rule.Plain
import Concretion.Recovery.Rule.Try

/-!
# Rules that keep quiet

A rule asks for no name to be skipped if the fragments that it recovers do not. There are two
exceptions. A function that declares its own name does ask for that, and a binding under a name of
its own may have such a function as its value: the name of the binding comes next.

- `FunctionFragment.Quiet`, `MemberFragment.Quiet` and so on: the parts of a construct keep quiet.
- `Rule.quiet_*`: rules that keep quiet.
- `Rule.answers_valueAndName`: a value and the name of its binding.

The order of the lemmas is that of the rules.
-/

namespace Concretion

open Recover

/-! ## Fragments -/

/-- An expression keeps quiet. -/
abbrev Fragment.Quiet (scope : Scope) (fragment : Fragment) : Prop :=
  Recover.Quiet scope fragment.build

/-- A block keeps quiet. -/
abbrev BlockFragment.Quiet (scope : Scope) (fragment : BlockFragment) : Prop :=
  Recover.Quiet scope fragment.build

/-- The body of a function and the default values of its parameters keep quiet. -/
structure FunctionFragment.Quiet (scope : Scope) (function : FunctionFragment) : Prop where
  body : function.body.Quiet scope
  defaults : ∀ value ∈ function.defaults, value.2.Quiet scope

/-- The value of a member keeps quiet. -/
def MemberValue.Quiet (scope : Scope) : MemberValue → Prop
  | method function => function.Quiet scope
  | expression value => value.Quiet scope

/-- The parts of a member keep quiet. -/
structure MemberFragment.Quiet (scope : Scope) (member : MemberFragment) : Prop where
  key : member.key.Quiet scope
  value : ∀ value ∈ member.value, value.Quiet scope
  getter : ∀ function ∈ member.getter, function.Quiet scope
  setter : ∀ function ∈ member.setter, function.Quiet scope

/-- The parts of a class keep quiet. -/
structure ClassFragment.Quiet (scope : Scope) (definition : ClassFragment) : Prop where
  heritage : ∀ fragment ∈ definition.heritage, fragment.Quiet scope
  elements : ∀ element ∈ definition.elements, Recover.Quiet scope element.build

/-- The parts of a loop keep quiet. -/
structure LoopFragment.Quiet (scope : Scope) (loop : LoopFragment) : Prop where
  init : ∀ fragment ∈ loop.init, fragment.Quiet scope
  test : ∀ fragment ∈ loop.test, fragment.Quiet scope
  update : ∀ fragment ∈ loop.update, fragment.Quiet scope
  body : loop.body.Quiet scope

/-- A statement keeps quiet, and so do the parts of a loop. -/
structure StatementFragment.Quiet (scope : Scope) (statement : StatementFragment) : Prop where
  build : Recover.Quiet scope statement.build
  loop : ∀ loop ∈ statement.loop?, loop.Quiet scope

variable {scope : Scope}

/-- Of no member at all everything can be said. -/
theorem MemberFragment.quiet_none :
    ∀ part ∈ (none : Option MemberFragment), part.Quiet scope := by
  rintro part ⟨⟩

/-- A part that is missing asks for nothing. -/
theorem Fragment.quiet_buildOptional {fragment : Option Fragment}
    (h : ∀ part ∈ fragment, part.Quiet scope) : Recover.Quiet scope (buildOptional fragment) := by
  cases fragment with
  | none => exact .pure
  | some part => exact h part rfl

/-- To put a group around what was recovered asks for nothing. -/
theorem quiet_grouped {action : Recover Unit} (h : Quiet scope action) (mustGroup : Bool) :
    Quiet scope (action >>= fun _ => if mustGroup then groupLastChild else pure ()) := by
  refine h.andThen ?_
  split
  · exact .groupLastChild
  · exact .pure

/-- An operand may be grouped behind its recovery. -/
theorem Fragment.quiet_buildBeside {operand : Fragment} (h : operand.Quiet scope)
    (outer : Operator) (side : Operator.Side) :
    Recover.Quiet scope (operand.buildBeside outer side) :=
  quiet_grouped h _

/-- So may the object of an access or a call. -/
theorem Fragment.quiet_buildObject {operand : Fragment} (h : operand.Quiet scope) :
    Recover.Quiet scope operand.buildObject :=
  quiet_grouped h _

namespace Rule

/-! ## Identifiers and literals -/

/-- The next identifier answers if a name was to be skipped. -/
theorem answers_ident (name : Ident) : Answers scope (ident name) := by
  refine Answers.takeSkip.bind fun skips => ?_
  split
  · exact .ofLooks (.note _)
  · exact .after (.identifier _ _ _) fun node => .attach _

/-- A literal declares no name. -/
theorem quiet_verbatim (range : Range) (token : TokenKind) (kind : Symbol → NodeKind) :
    Quiet scope (verbatim range token kind) :=
  .after (.rangeSpan _ _) fun _ => .after (.symbolOver _ _) fun _ => .pure

theorem quiet_numeral (span : Span) : Quiet scope (numeral span) :=
  .after (.symbolOver _ _) fun _ => .pure

/-- The digits are cut out of the text, which asks for nothing. -/
theorem quiet_number (range : Range) : Quiet scope (number range) := by
  rw [number]
  refine .after (.rangeSpan _ _) fun full => .after .source fun text => ?_
  dsimp only
  split
  · exact quiet_numeral full
  · exact .after (.spanBetween _ _) fun span => quiet_numeral span

/-- That a quotation mark is missing is noted and asks for nothing. -/
theorem quiet_string (range : Range) (value : String) : Quiet scope (string range value) := by
  rw [string]
  refine .after .source fun text => ?_
  split
  · exact .throw
  · refine .after (.rangeSpan _ _) fun span => .after (looks_quoteShown _ _) fun quote => ?_
    exact .after (.intern _) fun _ => .pure

/-- Every kind of literal is made first and then attached. -/
theorem quiet_literal (range : Range) (value : Literal) : Quiet scope (literal range value) := by
  unfold literal
  split
  · exact (quiet_number range).bind fun _ => .attach _
  · exact (quiet_string range _).bind fun _ => .attach _
  all_goals exact (quiet_verbatim range _ _).bind fun _ => .attach _

/-! ## Operators -/

/-- To dissolve a call changes the stack only. -/
theorem quiet_operandBelow (operator : Operator) (form : UnaryForm) {operand : Fragment}
    (h : operand.Quiet scope) : Quiet scope (operandBelow operator form operand) := by
  refine (Fragment.quiet_buildBeside h _ _).andThen ?_
  split
  · exact .modifyStack _
  · exact .pure

/-- An operator that is not unary fails, any other is followed by its operand. -/
theorem quiet_unary (range : Range) (operator : Operator) {operand : Fragment}
    (h : operand.Quiet scope) : Quiet scope (unary range operator operand) := by
  rw [unary]
  refine .after (.rangeSpan _ _) fun span => ?_
  split
  · exact .throw
  · next spelling form _ =>
    have hnode : ∀ symbol : Symbol, Quiet scope
        (enter (.leaf (form.nodeKind symbol) span) (operandBelow operator form operand)) :=
      fun symbol => .enter (quiet_operandBelow operator form h)
    dsimp only
    split
    · exact .after (.findEndingAt _ _ _ _) fun symbol => hnode symbol
    · exact .after (.findAtOrAfter _ _ _ _) fun symbol => hnode symbol

/-- Words and signs are both looked up. -/
theorem quiet_operatorBetween (spelling : String) (start finish : Nat) :
    Quiet scope (operatorBetween spelling start finish) := by
  unfold operatorBetween
  dsimp only
  split
  · exact .ofLooks (.findWord _ _ _ _)
  · exact .ofLooks (.find _ _ _ _)

/-- The operands are recovered one after the other, so what the left one asks for would get to the
right. -/
theorem quiet_binary (range : Range) (operator : Operator) {left right : Fragment}
    (hl : left.Quiet scope) (hr : right.Quiet scope) :
    Quiet scope (binary range operator left right) := by
  refine .after (.rangeSpan _ _) fun span => ?_
  split
  · exact .throw
  · refine (quiet_operatorBetween _ _ _).bind fun symbol => .enter ?_
    exact (Fragment.quiet_buildBeside hl _ _).andThen (Fragment.quiet_buildBeside hr _ _)

/-- Three parts in sequence, each of which has to keep quiet. -/
theorem quiet_conditional (range : Range) {test consequent alternate : Fragment}
    (ht : test.Quiet scope) (hc : consequent.Quiet scope) (ha : alternate.Quiet scope) :
    Quiet scope (conditional range test consequent alternate) := by
  refine .after (.rangeSpan _ _) fun span => .after (.find _ _ _ _) fun question => ?_
  refine .after (.find _ _ _ _) fun colon => .enter ?_
  refine (Fragment.quiet_buildBeside ht _ _).andThen ?_
  exact (Fragment.quiet_buildBeside hc _ _).andThen (Fragment.quiet_buildBeside ha _ _)

/-! ## Collections -/

/-- A hole is attached at once. -/
theorem quiet_element (hole : Nat) {fragment : Option Fragment}
    (h : ∀ part ∈ fragment, part.Quiet scope) : Quiet scope (element hole fragment) := by
  cases fragment with
  | some part => exact h part rfl
  | none => exact Quiet.getStack.bind fun stack => .attach _

/-- The number of elements is checked behind them, which may fail. -/
theorem quiet_array (range : Range) {elements : List (Option Fragment)}
    (h : ∀ element ∈ elements, ∀ part ∈ element, part.Quiet scope) :
    Quiet scope (array range elements) := by
  refine .after (.rangeSpan _ _) fun span => .after (.findAtOrAfter _ _ _ _) fun lbracket => ?_
  refine .after (.findEndingAt _ _ _ _) fun rbracket => .enter ?_
  refine (Quiet.forM fun part hpart => quiet_element _ (h part hpart)).andThen ?_
  refine Quiet.getStack.bind fun stack => ?_
  dsimp only
  split
  · exact .throw
  · exact .pure

/-- The members are recovered in sequence. -/
theorem quiet_object (range : Range) {members : List (Recover Unit)}
    (h : ∀ member ∈ members, Quiet scope member) : Quiet scope (object range members) := by
  refine .after (.rangeSpan _ _) fun span => .after (.findAtOrAfter _ _ _ _) fun lbrace => ?_
  exact .after (.findEndingAt _ _ _ _) fun rbrace => .enter (.forM h)

/-! ## References -/

/-- The list waits on the shelf while the callee is recovered, and has no part in that. -/
theorem quiet_call (range : Range) {callee : Fragment} {arguments : List Fragment}
    (hc : callee.Quiet scope) (ha : ∀ argument ∈ arguments, argument.Quiet scope) :
    Quiet scope (call range callee arguments) := by
  refine .after (.rangeSpan _ _) fun span => .after looks_argumentList fun list => .enter ?_
  cases list with
  | none => exact Fragment.quiet_buildObject hc
  | some list =>
    refine (Quiet.defer list).bind fun ticket => (Fragment.quiet_buildObject hc).andThen ?_
    exact (Quiet.takeDeferred ticket).bind fun list => .enter (.forM ha)

/-- The name of the property is looked up and not skipped, whatever has been asked for. -/
theorem quiet_access (range : Range) {base : Fragment} (property : String)
    (h : base.Quiet scope) : Quiet scope (access range base property) := by
  refine .after (.rangeSpan _ _) fun span => .after (.find _ _ _ _) fun dot => ?_
  refine .after (.identifier _ _ _) fun name => .enter ?_
  exact (Fragment.quiet_buildObject h).andThen (.attach _)

/-- Object and index in sequence. -/
theorem quiet_index (range : Range) {base index : Fragment} (hb : base.Quiet scope)
    (hi : index.Quiet scope) : Quiet scope (Rule.index range base index) := by
  refine .after (.rangeSpan _ _) fun span => .after (.find _ _ _ _) fun lbracket => ?_
  refine .after (.findEndingAt _ _ _ _) fun rbracket => .enter ?_
  exact (Fragment.quiet_buildObject hb).andThen hi

/-! ## Functions -/

/-- A name that is looked up directly takes no request to skip it. -/
theorem quiet_name (start finish : Nat) (name : String) :
    Quiet scope (do attach (← identifier start finish name)) :=
  .after (.identifier _ _ _) fun _ => .attach _

/-- The name of a rest parameter is looked up directly. -/
theorem quiet_restElement (parameter : Ident) (ellipsis : Option Symbol) :
    Quiet scope (restElement parameter ellipsis) :=
  .after (.rangeSpan _ _) fun _ => .after (.identifier _ _ _) fun _ => .attach _

/-- With the dots or without, the same node is attached. -/
theorem quiet_restParameter (parameter : Ident) : Quiet scope (restParameter parameter) := by
  rw [restParameter]
  refine .after .source fun source => .after .gapStart fun windowStart => ?_
  refine .after (.settle? _) fun found => ?_
  cases found with
  | none => exact quiet_restElement parameter none
  | some offset =>
    exact .after (.symbolAt _ _) fun symbol => quiet_restElement parameter (some symbol)

/-- The name of the parameter is attached in front of the value. -/
theorem quiet_defaultParameter (parameter : Ident) {value : Fragment} (h : value.Quiet scope) :
    Quiet scope (defaultParameter parameter value) := by
  refine .after (.find _ _ _ _) fun equal => .after (.rangeSpan _ _) fun span => ?_
  exact .after (.identifier _ _ _) fun name => .enter ((Quiet.attach name).andThen h)

/-- Of the kinds of parameters only one recovers an expression, its default value. -/
theorem quiet_parameter {function : FunctionFragment} (h : function.Quiet scope)
    (parameter : Ident) : Quiet scope (Rule.parameter function parameter) :=
  parameter_cases (fun _ => quiet_restParameter parameter)
    (fun _ hvalue => quiet_defaultParameter parameter (h.defaults _ hvalue))
    (.after (.note _) fun _ => quiet_name _ _ _) (quiet_name _ _ _)

/-- The parameters are recovered below their list. -/
theorem quiet_parameters {function : FunctionFragment} (nameEnd : Nat)
    (h : function.Quiet scope) : Quiet scope (parameters function nameEnd) :=
  .after (looks_parameterList function nameEnd) fun _ =>
    .enter (.forM fun parameter _ => quiet_parameter h parameter)

/-- A computed key is an expression like any other. -/
theorem quiet_key {member : MemberFragment} (h : member.Quiet scope) :
    Quiet scope (key member) := by
  unfold key
  split
  · exact h.key
  · refine .after (.findLast _ _ _ _) fun lbracket => .after (.find _ _ _ _) fun rbracket => ?_
    exact .after (.mergeSpans _ _) fun span => .enter h.key

/-- The name in a function is looked up directly, so no request can reach it. -/
theorem quiet_functionName (function : FunctionFragment) {member : Option MemberFragment}
    (h : ∀ part ∈ member, part.Quiet scope) : Quiet scope (functionName function member) := by
  cases member with
  | some member => exact quiet_key (h member rfl)
  | none =>
    unfold functionName
    dsimp only
    split
    · exact .pure
    · split
      · exact .attach _
      · exact quiet_name _ _ _

/-- The node alone asks for nothing, this is done where it is attached. -/
theorem quiet_functionNode {function : FunctionFragment} {member : Option MemberFragment}
    (hf : function.Quiet scope) (hm : ∀ part ∈ member, part.Quiet scope) :
    Quiet scope (functionNode function member) := by
  refine .after (looks_functionStart function member) fun start => ?_
  refine .after (.rangeSpan _ _) fun span => .within ?_
  exact (quiet_functionName function hm).andThen ((quiet_parameters _ hf).andThen hf.body)

/-- An export statement is put around a node that is complete. -/
theorem quiet_exportIf (status : ExportStatus) (node : Node) (windowStart : Nat) :
    Quiet scope (exportIf status node windowStart) := by
  unfold exportIf
  split
  · exact .after (.findLastWord? _ _ _ _) fun keyword => .after (.spanBetween _ _) fun span => .pure
  · exact .pure

/-- A function that declares no name of its own. -/
theorem quiet_functionExpression {function : FunctionFragment} (h : function.Quiet scope)
    (hdeclared : (function.isDeclared && !function.isAnonymous && !function.isMethod) = false) :
    Quiet scope (functionExpression function) := by
  refine .after (.note _) fun _ => .after .gapStart fun windowStart => ?_
  refine (quiet_functionNode h MemberFragment.quiet_none).bind fun node => ?_
  -- no name is declared, so none is to be skipped
  rw [hdeclared]
  dsimp only
  rw [if_neg Bool.false_ne_true, pure_bind]
  exact (quiet_exportIf _ _ _).bind fun exported => (Quiet.attach exported).andThen .pure

/-! ## Members -/

/-- A shorthand is its key only. -/
theorem quiet_pair {member : MemberFragment} {value : Fragment} (hm : member.Quiet scope)
    (hv : value.Quiet scope) : Quiet scope (pair member value) := by
  refine .after (.rangeSpan _ _) fun span => ?_
  split
  · exact .enter hm.key
  · exact .after (.find _ _ _ _) fun colon => .enter ((quiet_key hm).andThen hv)

/-- An accessor takes over the parts of its function, which does not stand as a declaration here. -/
theorem quiet_accessorParts {function : FunctionFragment} (accessor : Accessor)
    (h : function.Quiet scope) : Quiet scope (accessorParts function accessor) := by
  refine (quiet_functionNode h MemberFragment.quiet_none).bind fun node => ?_
  dsimp only
  split
  · exact (Quiet.forM fun part _ => .attach part).andThen (.forM fun part _ => .attach part)
  · exact .forM fun part _ => .attach part

/-- The name of a second accessor is looked up directly. -/
theorem quiet_accessor {member : MemberFragment} {function : FunctionFragment}
    (accessor : Accessor) (ownsKey : Bool) (hm : member.Quiet scope) (hf : function.Quiet scope) :
    Quiet scope (Rule.accessor member function accessor ownsKey) := by
  rw [Rule.accessor]
  refine .after (looks_accessorRange _ _ _ _) fun range => ?_
  refine .after (.rangeSpan _ _) fun span => .enter ?_
  dsimp only
  split
  · exact (quiet_key hm).andThen (quiet_accessorParts accessor hf)
  · exact .after (.identifier _ _ _) fun name =>
      (Quiet.attach name).andThen (quiet_accessorParts accessor hf)

/-- Each accessor keeps quiet, and so does their sequence. -/
theorem quiet_accessors {member : MemberFragment} (h : member.Quiet scope) :
    Quiet scope (accessors member) := by
  rw [accessors]
  refine Quiet.forM fun written hwritten => quiet_accessor _ _ h ?_
  have hmem := MemberFragment.mem_accessors (List.fst_mem_of_mem_zipIdx hwritten)
  exact hmem.elim (h.getter _) (h.setter _)

/-- A method is a function that is no declaration, so it asks for nothing. -/
theorem quiet_member {member : MemberFragment} (h : member.Quiet scope) :
    Quiet scope (Rule.member member) := by
  unfold Rule.member
  split
  · exact quiet_accessors h
  · split
    · next function hvalue =>
      refine (quiet_functionNode (h.value (.method function) hvalue) ?_).bind fun node => .attach _
      rintro part ⟨⟩
      exact h
    · next value hvalue => exact quiet_pair h (h.value (.expression value) hvalue)
    · exact .after (.rangeSpan _ _) fun span => .throw

/-! ## Classes -/

/-- The elements are sorted first, which makes no difference. -/
theorem quiet_classBody {definition : ClassFragment} (h : definition.Quiet scope) :
    Quiet scope (classBody definition) := by
  refine .after (.find _ _ _ _) fun lbrace => .after (.findEndingAt _ _ _ _) fun rbrace => ?_
  refine .after (.mergeSpans _ _) fun span => .enter ?_
  exact .forM fun element hmem => h.elements element (List.mem_mergeSort.1 hmem)

/-- The name of a class is looked up directly and put in front. -/
theorem quiet_classNode {definition : ClassFragment} (name : Option Ident)
    (h : definition.Quiet scope) : Quiet scope (classNode definition name) := by
  refine .after (.note _) fun _ => .after (.rangeSpan _ _) fun span => .within ?_
  refine (Fragment.quiet_buildOptional h.heritage).andThen ((quiet_classBody h).andThen ?_)
  cases name with
  | none => exact .pure
  | some name =>
    refine .after (.identifier _ _ _) fun node => (Quiet.attach node).andThen ?_
    refine Quiet.getStack.bind fun stack => ?_
    split
    · exact .reorder _
    · exact .reorder _

/-- A class asks for nothing, unlike a function. -/
theorem quiet_classExpression {definition : ClassFragment} (h : definition.Quiet scope) :
    Quiet scope (classExpression definition) :=
  (quiet_classNode _ h).bind fun _ => .attach _

/-! ## Bindings -/

/-- The name of a binding answers whatever its value has asked for. -/
theorem answers_valueAndName (binding : BindingFragment) : Answers scope (valueAndName binding) :=
  .behind fun _ => answers_ident binding.name

/-- The name stands behind the value here, and takes what that has asked for. -/
theorem answers_declarationParts (binding : BindingFragment) (span : Span) :
    Answers scope (declarationParts binding span) := by
  refine (answers_valueAndName binding).bind fun _ => Quiet.getStack.bind fun stack => ?_
  split
  · exact .reorder _
  · exact .attach _
  · exact .throw

/-- So does the declarator of the binding, which has the name in it. -/
theorem answers_declaration (binding : BindingFragment) : Answers scope (declaration binding) := by
  have hnode : ∀ (equal : Option Symbol) (span : Span), Answers scope
      (within (.leaf (.declaration equal) span) (declarationParts binding span)) :=
    fun equal span => .within (answers_declarationParts binding span)
  refine .behind fun span => ?_
  cases binding.init with
  | none => exact hnode none span
  | some init => exact .behind fun equal => hnode (some equal) span

/-- The declarator has been recovered before. -/
theorem quiet_addDeclarator (declarator node : Node) :
    Quiet scope (addDeclarator declarator node) :=
  .after (.mergeSpans _ _) fun _ => .pure

/-- To extend a statement or what it exports asks for nothing. -/
theorem quiet_extendVariables (statement declarator : Node) :
    Quiet scope (extendVariables statement declarator) := by
  unfold extendVariables
  split
  · exact quiet_addDeclarator _ _
  · refine .after (.mergeSpans _ _) fun span => ?_
    cases statement.lastChild? with
    | none => exact .pure
    | some last =>
      simp only [Option.toList_some, List.mapM_cons, List.mapM_nil, bind_assoc, pure_bind]
      exact (quiet_addDeclarator _ _).bind fun made => .pure

/-- The declarator answers, and what is done with it asks for nothing. -/
theorem quiet_continuedVariable (binding : BindingFragment) :
    Quiet scope (continuedVariable binding) := by
  refine (answers_declaration binding).quiet.bind fun declarator => ?_
  refine .after (.terminates _ _) fun flag => ?_
  refine Quiet.getStack.bind fun stack => ?_
  split
  · split
    · exact (quiet_extendVariables _ _).bind fun extended => .modifyStack _
    · exact .throw
  · exact .throw

/-- The declarator of the statement answers. -/
theorem answers_variableStatement (binding : BindingFragment) (keywordStart windowStart : Nat) :
    Answers scope (variableStatement binding keywordStart windowStart) := by
  refine .behind fun keyword => (answers_declaration binding).bind fun declarator => ?_
  refine .after (.spanBetween _ _) fun span => .after (.terminates _ _) fun flag => ?_
  refine .after (.exportStatus _) fun status => ?_
  exact (quiet_exportIf _ _ _).bind fun exported => .attach _

/-- With a keyword or without, the declarator is recovered and answers. -/
theorem quiet_variableBinding (binding : BindingFragment) :
    Quiet scope (variableBinding binding) := by
  refine .after .gapStart fun windowStart => .after (looks_ownKeyword _ _ _) fun found => ?_
  cases found with
  | some offset => exact (answers_variableStatement _ _ _).quiet
  | none =>
    refine Quiet.getStack.bind fun stack => ?_
    split
    · exact quiet_continuedVariable binding
    · refine .after .source fun text => .after (.settle _ _) fun offset => ?_
      exact (answers_variableStatement _ _ _).quiet

/-- There may be a declared function in the export, whose request has to be taken back. -/
theorem quiet_defaultExport (binding : BindingFragment) : Quiet scope (defaultExport binding) := by
  unfold defaultExport
  split
  · exact .after (.rangeSpan _ _) fun span => .throw
  · -- the default export answers itself, for there is no name
    refine Answers.quiet (.behind fun windowStart => .behind fun keyword => ?_)
    refine .behind fun span => .behind fun node => Answers.takeSkip.bind fun _ => ?_
    exact .after (.terminates _ _) fun flag => .attach _

/-- The class is complete when it is wrapped. -/
theorem quiet_exportedClass {definition : ClassFragment} (h : definition.Quiet scope)
    (windowStart : Nat) (status : ExportStatus) (name : Option Ident) :
    Quiet scope (exportedClass definition windowStart status name) :=
  (quiet_classNode name h).bind fun _ => (quiet_exportIf _ _ _).bind fun _ => .attach _

/-- With its name or without, the class is recovered in the same way. -/
theorem quiet_classDeclaration (name : Ident) {definition : ClassFragment}
    (h : definition.Quiet scope) : Quiet scope (classDeclaration name definition) := by
  rw [classDeclaration]
  refine .after (.note _) fun _ => .after .gapStart fun windowStart => ?_
  split
  · exact quiet_exportedClass h _ _ _
  · exact .after (.exportStatus _) fun status => quiet_exportedClass h _ _ _

/-- Whatever the value is: in each case a name comes behind it, or else the export answers. -/
theorem quiet_binding (binding : BindingFragment) : Quiet scope (Rule.binding binding) := by
  refine .after (.note _) fun _ => ?_
  split
  · exact quiet_defaultExport binding
  · split
    · exact (answers_valueAndName binding).quiet
    · exact quiet_variableBinding binding

/-! ## Loops -/

theorem quiet_clause {fragment : Option Fragment} (placeholder : Nat)
    (h : ∀ part ∈ fragment, part.Quiet scope) : Quiet scope (clause fragment placeholder) := by
  cases fragment with
  | some part => exact h part rfl
  | none => exact .attach _

/-- Declarations in the header have been recovered before. -/
theorem quiet_firstClause (declaration : Option Node) {init : Option Fragment} (placeholder : Nat)
    (h : ∀ part ∈ init, part.Quiet scope) :
    Quiet scope (firstClause declaration init placeholder) := by
  cases declaration with
  | some node => exact .attach node
  | none => exact quiet_clause _ h

/-- That nothing was left by the body is seen from the stack. -/
theorem quiet_loopBody {body : BlockFragment} (h : body.Quiet scope) :
    Quiet scope (loopBody body) := by
  refine Quiet.getStack.bind fun before => Quiet.andThen h (Quiet.getStack.bind fun after => ?_)
  split
  · exact .after (.rangeSpan _ _) fun span => .attach _
  · exact .pure

section Loops

variable {loop : LoopFragment} (declaration : Option Node)

/-- The four parts of the loop in sequence. -/
theorem quiet_classicLoop (span : Span) (lparen : Symbol) (initEnd : Nat) (h : loop.Quiet scope) :
    Quiet scope (classicLoop loop declaration span lparen initEnd) := by
  refine .after (.find _ _ _ _) fun semi1 => .after (.find _ _ _ _) fun semi2 => ?_
  refine .after (.findLast _ _ _ _) fun rparen => .enter ?_
  refine (quiet_firstClause _ _ h.init).andThen ((quiet_clause _ h.test).andThen ?_)
  exact (quiet_clause _ h.update).andThen ((quiet_loopBody h.body).andThen (.expectChildren 4))

/-- The three parts of the loop in sequence. -/
theorem quiet_rangingLoop (span : Span) (lparen : Symbol) (initEnd : Nat) (h : loop.Quiet scope) :
    Quiet scope (rangingLoop loop declaration span lparen initEnd) := by
  refine .after (.findWord _ _ _ _) fun keyword => .after (.findLast _ _ _ _) fun rparen => ?_
  refine .enter ((quiet_firstClause _ _ h.init).andThen ?_)
  exact (quiet_clause _ h.update).andThen ((quiet_loopBody h.body).andThen (.expectChildren 3))

/-- Each kind of loop keeps quiet, with declarations in its header or without. -/
theorem quiet_forLoop (h : loop.Quiet scope) : Quiet scope (forLoop loop declaration) := by
  refine .after (.rangeSpan _ _) fun span => .after (.find _ _ _ _) fun lparen => ?_
  dsimp only
  split
  · exact quiet_classicLoop declaration _ _ _ h
  · exact quiet_rangingLoop declaration _ _ _ h
  · exact quiet_rangingLoop declaration _ _ _ h

/-! ## Blocks -/

/-- The declarators are complete, only their spans are merged. -/
theorem quiet_appendDeclarators (combined node : Node) :
    Quiet scope (appendDeclarators combined node) := by
  have hspan : Looks scope
      (node.children.foldlM (fun span child => mergeSpans span child.span) combined.span)
      fun _ => True :=
    Looks.foldlM (fun span child _ => Looks.mergeSpans span child.span) node.children trivial
  exact .after (looks_expectVar node) fun _ => .after hspan fun span => .pure

/-- Declarations are combined one by one, each after a look at its kind. -/
theorem quiet_combineDeclarations (nodes : List Node) :
    Quiet scope (combineDeclarations nodes) := by
  cases nodes with
  | nil => exact .pure
  | cons first rest =>
    have hfold : ∀ (nodes : List Node) (combined : Node),
        Quiet scope (nodes.foldlM appendDeclarators combined) := by
      intro nodes
      induction nodes with
      | nil => exact fun combined => .pure
      | cons node rest ih =>
        intro combined
        rw [List.foldlM_cons]
        exact (quiet_appendDeclarators combined node).bind ih
    exact .after (looks_expectVar first) fun _ => (hfold rest first).bind fun combined => .pure

/-- The declarations are recovered in a node of their own, and the loop comes behind. -/
theorem quiet_declaringLoop {declarations : List StatementFragment} (hl : loop.Quiet scope)
    (h : ∀ statement ∈ declarations, statement.Quiet scope) :
    Quiet scope (declaringLoop loop declarations) := by
  refine .after (.note _) fun _ => .after (.rangeSpan _ _) fun span => ?_
  refine (Quiet.within (.forM fun statement hmem => (h statement hmem).build)).bind ?_
  exact fun collected => (quiet_combineDeclarations _).bind fun combined =>
    quiet_forLoop combined hl

end Loops

section Blocks

variable {statements : List StatementFragment}

theorem quiet_bracedBlock (range : Range)
    (h : ∀ statement ∈ statements, statement.Quiet scope) :
    Quiet scope (bracedBlock range statements) := by
  refine .after (.rangeSpan _ _) fun _ => .after (.findAtOrAfter _ _ _ _) fun lbrace => ?_
  refine .after (.findEndingAt _ _ _ _) fun rbrace => .after (.mergeSpans _ _) fun span => ?_
  exact .enter (.forM fun statement hmem => (h statement hmem).build)

/-- Only the last of the statements is recovered. -/
theorem quiet_parameterBlock (range : Range)
    (h : ∀ statement ∈ statements, statement.Quiet scope) :
    Quiet scope (parameterBlock range statements) := by
  unfold parameterBlock
  split
  · next body hlast => exact (h body (List.mem_of_getLast? hlast)).build
  · exact .after (.rangeSpan _ _) fun span => .throw

/-- Each statement is recovered, be it in front of the loop or in its header. -/
theorem quiet_syntheticBlock (h : ∀ statement ∈ statements, statement.Quiet scope) :
    Quiet scope (syntheticBlock statements) := by
  unfold syntheticBlock
  split
  · exact .forM fun statement hmem => (h statement hmem).build
  · next loop hloop =>
    -- the loop is the last statement, and those in front of it may move into its header
    obtain ⟨last, hlast, hlastLoop⟩ := Option.bind_eq_some_iff.1 hloop
    have hl : loop.Quiet scope := (h last (List.mem_of_getLast? hlast)).loop loop hlastLoop
    have hrest : ∀ statement ∈ statements.dropLast, statement.Quiet scope :=
      fun statement hmem => h statement (List.dropLast_subset _ hmem)
    refine (Quiet.forM fun statement hmem => ?_).andThen ?_
    · exact (hrest statement (List.mem_of_mem_take hmem)).build
    · split
      · exact quiet_forLoop none hl
      · exact quiet_declaringLoop hl fun statement hmem =>
          hrest statement (List.mem_of_mem_drop hmem)

/-- Every kind of block recovers statements only. -/
theorem quiet_block (range : Range) (kind : BlockKind)
    (h : ∀ statement ∈ statements, statement.Quiet scope) :
    Quiet scope (block range kind statements) := by
  cases kind with
  | braced => exact quiet_bracedBlock range h
  | parameter => exact quiet_parameterBlock range h
  | synthetic => exact quiet_syntheticBlock h

end Blocks

/-! ## Branching statements -/

section Branches

variable {test : Fragment} {body : BlockFragment}

/-- The place of a missing branch is taken by a node that is complete. -/
theorem quiet_ifElse (range : Range) {fail : Option BlockFragment} (ht : test.Quiet scope)
    (hp : body.Quiet scope) (hf : ∀ block ∈ fail, block.Quiet scope) :
    Quiet scope (ifElse range test body fail) := by
  refine .after (.rangeSpan _ _) fun span => .after (.find _ _ _ _) fun lparen => ?_
  refine .after (.find _ _ _ _) fun rparen => .enter (Quiet.andThen ht (Quiet.andThen hp ?_))
  cases fail with
  | some block => exact Quiet.andThen (hf block rfl) (.expectChildren 3)
  | none => exact Quiet.getStack.bind fun stack => (Quiet.attach _).andThen (.expectChildren 3)

/-- Subject and clauses in sequence. -/
theorem quiet_switch (range : Range) {cases : List (Range × Recover Unit)}
    (ht : test.Quiet scope) (hc : ∀ clause ∈ cases, Quiet scope clause.2) :
    Quiet scope (switch range test cases) := by
  refine .after (.rangeSpan _ _) fun span => .after (.find _ _ _ _) fun lparen => ?_
  refine .after (.find _ _ _ _) fun rparen => .after (.find _ _ _ _) fun lbrace => ?_
  exact .after (.findEndingAt _ _ _ _) fun rbrace => .enter (Quiet.andThen ht (.forM hc))

/-- The test is recovered in front of the statements, if there is one. -/
theorem quiet_caseNode {clause : CaseFragment} (ht : ∀ test ∈ clause.test, test.Quiet scope)
    (hs : ∀ statement ∈ clause.statements, statement.Quiet scope) (kind : NodeKind)
    (colon : Symbol) : Quiet scope (caseNode clause kind colon) := by
  refine .after (.rangeSpan _ _) fun part => .after (.mergeSpans _ _) fun span => .enter ?_
  refine (Fragment.quiet_buildOptional ht).andThen ?_
  exact .forM fun statement hmem => (hs statement hmem).build

/-- With its test or without, a clause looks for its colon first. -/
theorem quiet_switchCase {clause : CaseFragment} (ht : ∀ test ∈ clause.test, test.Quiet scope)
    (hs : ∀ statement ∈ clause.statements, statement.Quiet scope) :
    Quiet scope (switchCase clause) := by
  rw [switchCase]
  split
  · exact .after (.find _ _ _ _) fun colon => quiet_caseNode ht hs _ colon
  · exact .after (.find _ _ _ _) fun colon => quiet_caseNode ht hs _ colon

theorem quiet_whileLoop (range : Range) (ht : test.Quiet scope) (hb : body.Quiet scope) :
    Quiet scope (whileLoop range test body) := by
  refine .after (.rangeSpan _ _) fun span => .after (.find _ _ _ _) fun lparen => ?_
  exact .after (.find _ _ _ _) fun rparen => .enter (Quiet.andThen ht hb)

/-- The body is recovered in front of the test. -/
theorem quiet_doLoop (range : Range) (ht : test.Quiet scope) (hb : body.Quiet scope) :
    Quiet scope (doLoop range test body) := by
  refine .after (.rangeSpan _ _) fun span => .after (.find _ _ _ _) fun lparen => ?_
  refine .after (.find _ _ _ _) fun rparen => (Quiet.within (Quiet.andThen hb ht)).bind ?_
  exact fun node => .after (.endsWithSemicolon _) fun flag => .attach _

theorem quiet_withScope (range : Range) (ht : test.Quiet scope) (hb : body.Quiet scope) :
    Quiet scope (withScope range test body) := by
  refine .after (.rangeSpan _ _) fun span => .after (.find _ _ _ _) fun lparen => ?_
  exact .after (.find _ _ _ _) fun rparen => .enter (Quiet.andThen ht hb)

end Branches

/-! ## Plain statements -/

theorem quiet_withSemicolon (node : Node) (finish : Nat) :
    Quiet scope (withSemicolon node finish) :=
  .after (.terminates _ _) fun _ => .pure

/-- The statement is marked when its expression is complete. -/
theorem quiet_expressionStatement {expression : Fragment} (h : expression.Quiet scope) :
    Quiet scope (expressionStatement expression) := by
  refine Quiet.andThen h (Quiet.getStack.bind fun stack => ?_)
  split
  · exact .pure
  · exact (quiet_withSemicolon _ _).bind fun statement => .modifyStack _

theorem quiet_emptyStatement (range : Range) : Quiet scope (emptyStatement range) :=
  .after (.rangeSpan _ _) fun _ => .attach _

theorem quiet_throwStatement (range : Range) {value : Fragment} (h : value.Quiet scope) :
    Quiet scope (throwStatement range value) := by
  refine .after (.rangeSpan _ _) fun span => (Quiet.within h).bind fun node => ?_
  exact (quiet_withSemicolon _ _).bind fun statement => .attach _

/-- A generated `return` is its value only. -/
theorem quiet_returnStatement (range : Range) {value : Option Fragment} (isGenerated : Bool)
    (h : ∀ part ∈ value, part.Quiet scope) :
    Quiet scope (returnStatement range value isGenerated) := by
  unfold returnStatement
  split
  · exact Fragment.quiet_buildOptional h
  · refine .after (.rangeSpan _ _) fun span => (Quiet.within ?_).bind fun node =>
      (quiet_withSemicolon _ _).bind fun statement => .attach _
    cases value with
    | some part => exact h part rfl
    | none => exact .attach _

theorem quiet_jump (range : Range) (kind : JumpKind) (label : Option String) :
    Quiet scope (jump range kind label) := by
  refine .after (.rangeSpan _ _) fun span => .after (looks_jumpLabel _ label) fun symbol => ?_
  exact .after (.endsWithSemicolon _) fun owns => .attach _

/-- The label is looked up directly. -/
theorem quiet_labelled (range : Range) (label : String) {body : BlockFragment}
    (h : body.Quiet scope) : Quiet scope (labelled range label body) := by
  refine .after (.rangeSpan _ _) fun span => .after (.find _ _ _ _) fun colon => ?_
  exact .after (.identifier _ _ _) fun name => .enter ((Quiet.attach name).andThen h)

/-! ## Statements with handlers -/

/-- The name of the exception takes a request, but there is none. -/
theorem quiet_catchClause (range : Range) (exception : Ident) {body : BlockFragment}
    (h : body.Quiet scope) : Quiet scope (catchClause range exception body) :=
  .after (.rangeSpan _ _) fun _ => .enter ((answers_ident exception).quiet.andThen h)

theorem quiet_finallyBlock {finalizer : Option BlockFragment} (last : Nat)
    (h : ∀ block ∈ finalizer, block.Quiet scope) : Quiet scope (finallyBlock finalizer last) := by
  cases finalizer with
  | some block => exact h block rfl
  | none => exact .attach _

/-- The clause is put around a block that is complete. -/
theorem quiet_finallyLast (finalizer : Option BlockFragment) :
    Quiet scope (finallyLast finalizer) := by
  cases finalizer with
  | none => exact .pure
  | some finalizer =>
    refine Quiet.getStack.bind fun stack => ?_
    split
    · refine .after (.findWord _ _ _ _) fun keyword => ?_
      exact .after (.mergeSpans _ _) fun span => .wrapChild _ _
    · exact Quiet.getStack.bind fun stack => .throw

/-- The parts are complete when they are put in order. -/
theorem quiet_tryEnd (finalizer : Option BlockFragment) : Quiet scope (tryEnd finalizer) :=
  (Quiet.expectChildren 3).andThen ((Quiet.reorder _).andThen (quiet_finallyLast finalizer))

/-- The finalizer is recovered first, then body and handler. -/
theorem quiet_tryCatch (range : Range) {body : BlockFragment} {catches : List (Recover Unit)}
    {finalizer : Option BlockFragment} (hb : body.Quiet scope)
    (hc : ∀ clause ∈ catches, Quiet scope clause) (hf : ∀ block ∈ finalizer, block.Quiet scope) :
    Quiet scope (tryCatch range body catches finalizer) := by
  rw [tryCatch]
  refine .after (.note _) fun _ => .after (.rangeSpan _ _) fun span => ?_
  split
  · exact .throw
  · refine .enter ((quiet_finallyBlock _ hf).andThen (Quiet.andThen hb ?_))
    refine (Quiet.forM hc).andThen ?_
    split
    · exact Quiet.getStack.bind fun stack => (Quiet.attach _).andThen (quiet_tryEnd finalizer)
    · exact quiet_tryEnd finalizer

end Rule

end Concretion
