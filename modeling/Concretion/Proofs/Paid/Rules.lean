import Concretion.Proofs.Paid.Steps
import Concretion.Proofs.Sound.Rules

/-!
# Paying for the rules

A rule can be paid for if the fragments that it puts together can. The order of the lemmas is that
of the rules.
-/

namespace Concretion

open Recover

variable {scope : Scope} (tariff : Tariff scope.source)

/-! ## Fragments that can be paid for -/

/-- The recovery of an expression can be paid for. -/
def Fragment.Paid (fragment : Fragment) : Prop := Pays tariff .anywhere 0 fragment.build

/-- The recovery of a block can be paid for. -/
def BlockFragment.Paid (fragment : BlockFragment) : Prop := Pays tariff .anywhere 0 fragment.build

/-- The parts of a function can be paid for. -/
structure FunctionFragment.Paid (function : FunctionFragment) : Prop where
  body : function.body.Paid tariff
  defaults : ∀ value ∈ function.defaults, value.2.Paid tariff

/-- The value of a member can be paid for. -/
def MemberValue.Paid : MemberValue → Prop
  | method function => function.Paid tariff
  | expression value => value.Paid tariff

/-- The parts of a member can be paid for. -/
structure MemberFragment.Paid (member : MemberFragment) : Prop where
  key : member.key.Paid tariff
  value : ∀ value ∈ member.value, value.Paid tariff
  getter : ∀ function ∈ member.getter, function.Paid tariff
  setter : ∀ function ∈ member.setter, function.Paid tariff

/-- The parts of a class can be paid for. -/
structure ClassFragment.Paid (definition : ClassFragment) : Prop where
  heritage : ∀ fragment ∈ definition.heritage, fragment.Paid tariff
  elements : ∀ element ∈ definition.elements, Pays tariff .anywhere 0 element.build

/-- The value of a binding can be paid for. -/
def BindingFragment.Paid (binding : BindingFragment) : Prop :=
  ∀ fragment ∈ binding.init, fragment.Paid tariff

/-- The parts of a loop can be paid for. -/
structure LoopFragment.Paid (loop : LoopFragment) : Prop where
  init : ∀ fragment ∈ loop.init, fragment.Paid tariff
  test : ∀ fragment ∈ loop.test, fragment.Paid tariff
  update : ∀ fragment ∈ loop.update, fragment.Paid tariff
  body : loop.body.Paid tariff

/-- The recovery of a statement can be paid for, and so can the parts of a loop. -/
structure StatementFragment.Paid (statement : StatementFragment) : Prop where
  build : Pays tariff .anywhere 0 statement.build
  loop : ∀ loop ∈ statement.loop?, loop.Paid tariff

variable {tariff} {place : Place} {credit : Nat}

/-- What can be paid for anywhere can be paid for where it is built. -/
theorem Fragment.Paid.builds {fragment : Fragment} (h : fragment.Paid tariff) :
    Pays tariff place 0 fragment.build := h.relax

/-- As for expressions, the place where a block is built makes no difference. -/
theorem BlockFragment.Paid.builds {fragment : BlockFragment} (h : fragment.Paid tariff) :
    Pays tariff place 0 fragment.build := h.relax

/-- As for expressions, also when the statement declares the variables of a loop. -/
theorem StatementFragment.Paid.builds {statement : StatementFragment} (h : statement.Paid tariff) :
    Pays tariff place 0 statement.build := h.build.relax

/-- A part that is missing costs nothing. -/
theorem Fragment.paid_buildOptional {fragment : Option Fragment}
    (h : ∀ part ∈ fragment, part.Paid tariff) : Pays tariff place 0 (buildOptional fragment) := by
  cases fragment with
  | none => exact .pure (Nat.le_refl _)
  | some part => exact (h part rfl).builds

/-- The parentheses of a group spell the text where they are found, or come with warnings. -/
theorem Fragment.paid_buildBeside {operand : Fragment} (h : operand.Paid tariff) (outer : Operator)
    (side : Operator.Side) : Pays tariff .inside 0 (operand.buildBeside outer side) := by
  refine h.builds.andThen fun _ => ?_
  split
  · exact .groupLastChild
  · exact .pure (Nat.le_refl _)

/-- The group around the object of an access is paid for like the one around an operand. -/
theorem Fragment.paid_buildObject {operand : Fragment} (h : operand.Paid tariff) :
    Pays tariff .inside 0 operand.buildObject := by
  refine h.builds.andThen fun _ => ?_
  split
  · exact .groupLastChild
  · exact .pure (Nat.le_refl _)

namespace Rule

/-! ## Identifiers and literals -/

/-- A name is free, like its symbol. -/
theorem paid_ident (name : Ident) : Pays tariff place 0 (ident name) := by
  refine Paid.takeSkip.andThen fun skips => ?_
  split
  · exact .note _
  · exact .attached (.identifier _ _ _)

/-- The only symbol of such a node is the literal, which is free. -/
theorem paid_verbatim (range : Range) {token : TokenKind} {kind : Symbol → NodeKind}
    (htoken : token.isLiteral = true) (hkind : ∀ symbol, (kind symbol).symbols = [symbol])
    (hexport : ∀ symbol, (kind symbol).isExport = false) :
    Paid tariff place 0 (verbatim range token kind) tariff.tree := by
  refine (Paid.rangeSpan _ _).andThen fun span => ?_
  refine (Paid.symbolOver htoken).bind fun symbol => .pure ?_
  rw [Tariff.tree_leaf, tariff.kind_single (hkind symbol) (hexport symbol)]
  exact Nat.le_add_right _ _

/-- The digits of a number are a literal. -/
theorem paid_numeral (span : Span) : Paid tariff place 0 (numeral span) tariff.tree := by
  refine (Paid.symbolOver rfl).bind fun symbol => .pure ?_
  rw [Tariff.tree_leaf, tariff.kind_single rfl rfl]
  exact Nat.le_add_right _ _

/-- The sign in front of a number is skipped, it is no symbol of the node. -/
theorem paid_number (range : Range) : Paid tariff place 0 (number range) tariff.tree := by
  rw [number]
  refine (Paid.rangeSpan _ _).andThen fun full => Paid.source ?_
  dsimp only
  split
  · exact paid_numeral full
  · exact (Paid.spanBetween _ _).andThen paid_numeral

/-- To report that there is no quotation mark puts nothing into the tree. -/
theorem paid_quoteShown (span : Span) (found : Option UInt8) :
    Paid tariff place 0 (quoteShown span found) fun _ => 0 := by
  unfold quoteShown
  split
  · exact .pure (Nat.le_refl _)
  · split
    · exact (Paid.note _).andThen fun _ => .pure (Nat.le_refl _)
    · exact .pure (Nat.le_refl _)

/-- The quotation marks are part of the literal and no symbols of their own. -/
theorem paid_string (range : Range) (value : String) :
    Paid tariff place 0 (string range value) tariff.tree := by
  rw [string]
  refine Paid.source ?_
  split
  · exact Paid.throw
  · refine (Paid.rangeSpan _ _).andThen fun span => (paid_quoteShown _ _).andThen fun quote => ?_
    refine (Paid.intern _).andThen fun _ => .pure ?_
    rw [Tariff.tree_leaf, tariff.kind_single rfl rfl, tariff.symbol_literal _ rfl]

/-- Every literal becomes a leaf that is free. -/
theorem paid_literal (range : Range) (value : Literal) :
    Pays tariff place 0 (literal range value) := by
  rcases value with _ | value | flag | _ | _
  · exact .attached (paid_number range)
  · exact .attached (paid_string range value)
  · cases flag
    · exact .attached (paid_verbatim range rfl (fun _ => rfl) fun _ => rfl)
    · exact .attached (paid_verbatim range rfl (fun _ => rfl) fun _ => rfl)
  · exact .attached (paid_verbatim range rfl (fun _ => rfl) fun _ => rfl)
  · exact .attached (paid_verbatim range rfl (fun _ => rfl) fun _ => rfl)

/-! ## Collections -/

/-- A hole is filled with a node without symbols. -/
theorem paid_element (hole : Nat) {fragment : Option Fragment}
    (h : ∀ part ∈ fragment, part.Paid tariff) : Pays tariff place 0 (element hole fragment) := by
  cases fragment with
  | some part => exact (h part rfl).builds
  | none => exact Paid.getStack.andThen fun _ => (Paid.attach _).afford (tariff.tree_elision _).le

/-- The brackets are looked for at both ends of the range, and either is found or warned about. -/
theorem paid_array (range : Range) {elements : List (Option Fragment)}
    (h : ∀ element ∈ elements, ∀ part ∈ element, part.Paid tariff) :
    Pays tariff place 0 (array range elements) := by
  refine (Paid.rangeSpan _ _).andThen fun span => ?_
  refine (Paid.findAtOrAfter _ _ _ (by decide)).bind fun lbracket => ?_
  refine (Paid.findEndingAt _ _ _ (by decide)).bind fun rbracket => ?_
  refine .enterLeaf [lbracket, rbracket] rfl rfl ?_ ?_
  · simp only [Tariff.symbols_cons, Tariff.symbols_nil]
    omega
  · refine (Paid.forM fun element he => paid_element _ (h element he)).andThen fun _ => ?_
    refine Paid.getStack.andThen fun stack => ?_
    dsimp only
    split
    · exact .throw
    · exact .pure (Nat.le_refl _)

/-- The braces are looked for at both ends of the range, the members pay for themselves. -/
theorem paid_object (range : Range) {members : List (Recover Unit)}
    (h : ∀ member ∈ members, Pays tariff .anywhere 0 member) :
    Pays tariff place 0 (object range members) := by
  refine (Paid.rangeSpan _ _).andThen fun span => ?_
  refine (Paid.findAtOrAfter _ _ _ (by decide)).bind fun lbrace => ?_
  refine (Paid.findEndingAt _ _ _ (by decide)).bind fun rbrace => ?_
  refine .enterLeaf [lbrace, rbrace] rfl rfl ?_ ?_
  · simp only [Tariff.symbols_cons, Tariff.symbols_nil]
    omega
  · exact Paid.forM fun member hmember => (h member hmember).relax

/-! ## Operators -/

/-- The node of a unary operator is no export statement. -/
theorem isExport_unary (form : UnaryForm) (operator : Symbol) :
    (form.nodeKind operator).isExport = false := by
  cases form <;> rfl

/-- The node of a binary operator is no export statement. -/
theorem isExport_binary (form : BinaryForm) (operator : Symbol) :
    (form.nodeKind operator).isExport = false := by
  cases form <;> rfl

/-- A call that is flattened is all that is given up. -/
theorem paid_flattenInvoke :
    Pays tariff .inside 0 (modifyStack (·.modifyCurrent Node.flattenInvoke)) := by
  refine .modifyStack fun stack hinside => ⟨Paid.depth_modifyCurrent _ _, ?_⟩
  obtain ⟨root, _ | ⟨node, outer⟩⟩ := stack
  · exact absurd rfl hinside
  · have hflat : tariff.tree node.flattenInvoke ≤ tariff.tree node := by
      unfold Node.flattenInvoke
      split
      · next child hchildren =>
        split
        · have hbelow : tariff.below node = tariff.tree child := by
            rw [Tariff.below, hchildren]
            exact Nat.add_zero _
          rw [Tariff.tree_mk, Tariff.tree_eq, hbelow]
          exact Nat.add_le_add_left (tariff.below_le child) _
        · exact Nat.le_refl _
      · exact Nat.le_refl _
    simp only [Stack.modifyCurrent, Tariff.stack, Tariff.trees_cons]
    omega

/-- The call of `new` may be flattened once its price has been paid. -/
theorem paid_operandBelow (operator : Operator) (form : UnaryForm) {operand : Fragment}
    (h : operand.Paid tariff) : Pays tariff .inside 0 (operandBelow operator form operand) := by
  refine (Fragment.paid_buildBeside h _ _).andThen fun _ => ?_
  split
  · exact paid_flattenInvoke
  · exact .pure (Nat.le_refl _)

/-- One symbol is looked for, behind the operand if the operator is written there. -/
theorem paid_unary (range : Range) (operator : Operator) {operand : Fragment}
    (h : operand.Paid tariff) : Pays tariff place 0 (unary range operator operand) := by
  rw [unary]
  refine (Paid.rangeSpan _ _).andThen fun span => ?_
  split
  · exact .throw
  · next spelling form hform =>
    have htoken : (Token.ofOperator spelling).text ≠ "" :=
      (Token.text_ofOperator spelling).symm ▸ Operator.spelling_ne_of_unaryForm hform
    have hnode : ∀ symbol : Symbol, Pays tariff place (tariff.symbol symbol + 0)
        (enter (.leaf (form.nodeKind symbol) span) (operandBelow operator form operand)) :=
      fun symbol => .enterLeaf [symbol] (form.symbols_nodeKind _) (isExport_unary _ _)
        (Nat.le_refl _) (paid_operandBelow operator form h)
    dsimp only
    split
    · exact (Paid.findEndingAt _ _ _ htoken).bind hnode
    · exact (Paid.findAtOrAfter _ _ _ htoken).bind hnode

/-- An operator spelled with letters is looked for as a whole word, which spells the text too. -/
theorem paid_operatorBetween {spelling : String} (start finish : Nat) (h : spelling ≠ "") :
    Paid tariff place 0 (operatorBetween spelling start finish) tariff.symbol := by
  unfold operatorBetween
  dsimp only
  split
  · exact .findWord _ _ _ h
  · exact .find _ _ _ ((Token.text_ofOperator spelling).symm ▸ h)

/-- The operator that is found between the operands is the only symbol of the node. -/
theorem paid_binary (range : Range) (operator : Operator) {left right : Fragment}
    (hl : left.Paid tariff) (hr : right.Paid tariff) :
    Pays tariff place 0 (binary range operator left right) := by
  refine (Paid.rangeSpan _ _).andThen fun span => ?_
  split
  · exact .throw
  · next spelling form hform =>
    have hspelling := Operator.spelling_ne_of_binaryForm hform
    refine (paid_operatorBetween _ _ hspelling).bind fun symbol => ?_
    refine .enterLeaf [symbol] (form.symbols_nodeKind _) (isExport_binary _ _) (Nat.le_refl _) ?_
    exact (Fragment.paid_buildBeside hl _ _).andThen fun _ => Fragment.paid_buildBeside hr _ _

/-- Both `?` and `:` are paid for before the parts are built. -/
theorem paid_conditional (range : Range) {test consequent alternate : Fragment}
    (ht : test.Paid tariff) (hc : consequent.Paid tariff) (ha : alternate.Paid tariff) :
    Pays tariff place 0 (conditional range test consequent alternate) := by
  refine (Paid.rangeSpan _ _).andThen fun span => ?_
  refine (Paid.find _ _ _ (by decide)).bind fun question => ?_
  refine (Paid.find _ _ _ (by decide)).bind fun colon => ?_
  refine .enterLeaf [question, colon] rfl rfl ?_ ?_
  · simp only [Tariff.symbols_cons, Tariff.symbols_nil]
    omega
  · refine (Fragment.paid_buildBeside ht _ _).andThen fun _ => ?_
    exact (Fragment.paid_buildBeside hc _ _).andThen fun _ => Fragment.paid_buildBeside ha _ _

/-! ## Calls and member access -/

/-- What the opening parenthesis is worth has to be given, the closing one is looked for here. -/
theorem paid_argumentParens (range : Range) (opening : Nat) :
    Paid tariff place (tariff.symbol (Token.leftParen.at opening) + 0)
      (argumentParens range opening) fun list => list.elim 0 tariff.tree := by
  refine (Paid.symbolAt _ _).spend fun lparen => ?_
  refine (Paid.findEndingAt _ _ _ (by decide)).bind fun rparen => ?_
  refine (Paid.mergeSpans _ _).andThen fun span => .pure ?_
  rw [Option.elim_some, Tariff.tree_leaf, tariff.kind_symbols [lparen, rparen] rfl rfl]
  simp only [Tariff.symbols_cons, Tariff.symbols_nil]
  omega

/-- A call of `new` without parentheses has no list, and then there is nothing to pay for. -/
theorem paid_argumentList (range : Range) (calleeEnd : Nat) (arguments : List Fragment) :
    Paid tariff place 0 (argumentList range calleeEnd arguments)
      fun list => list.elim 0 tariff.tree := by
  cases arguments with
  | nil =>
    rw [argumentList]
    refine Paid.source ?_
    cases hfound : scope.source.find "(" calleeEnd range.finish with
    | none => exact .pure (Nat.zero_le _)
    | some opening =>
      have hparen : Token.leftParen.text ≠ "" := by decide
      have hspells := Source.spells_of_find hparen hfound
      exact (paid_argumentParens range opening).afford (tariff.symbol_at hspells).le
  | cons first rest =>
    rw [argumentList]
    refine Paid.source ?_
    exact (Paid.settleAt .leftParen (Source.locates_locate (by decide))).bind
      fun opening => paid_argumentParens range opening

/-- The argument list is paid for when it is put on the shelf, where the callee leaves it. -/
theorem paid_call (range : Range) {callee : Fragment} {arguments : List Fragment}
    (hc : callee.Paid tariff) (ha : ∀ argument ∈ arguments, argument.Paid tariff) :
    Pays tariff place 0 (call range callee arguments) := by
  refine (Paid.rangeSpan _ _).andThen fun span => ?_
  refine (paid_argumentList _ _ _).bind fun list => .enterBare rfl rfl ?_
  cases list with
  | none => exact Fragment.paid_buildObject hc
  | some list =>
    refine (Paid.defer list).spend fun ticket => ?_
    refine (Fragment.paid_buildObject hc).andThen fun _ => ?_
    refine (Paid.takeDeferred ticket).bind fun taken => .enter ?_
    exact Paid.forM fun argument hargument => (ha argument hargument).builds

/-- The name of the property is held back until the object is built, and so is its price. -/
theorem paid_access (range : Range) {base : Fragment} (property : String)
    (h : base.Paid tariff) : Pays tariff place 0 (access range base property) := by
  refine (Paid.rangeSpan _ _).andThen fun span => ?_
  refine (Paid.find _ _ _ (by decide)).bind fun dot => ?_
  refine (Paid.identifier _ _ _).bind fun name => ?_
  refine .enterSpending (tariff.tree name) [dot] rfl rfl ?_ ?_
  · simp only [Tariff.symbols_cons, Tariff.symbols_nil]
    omega
  · exact (Fragment.paid_buildObject h).andThen fun _ => .attach name

/-- The brackets are looked for before the object and the index are built. -/
theorem paid_index (range : Range) {base index : Fragment} (hb : base.Paid tariff)
    (hi : index.Paid tariff) : Pays tariff place 0 (Rule.index range base index) := by
  refine (Paid.rangeSpan _ _).andThen fun span => ?_
  refine (Paid.find _ _ _ (by decide)).bind fun lbracket => ?_
  refine (Paid.findEndingAt _ _ _ (by decide)).bind fun rbracket => ?_
  refine .enterLeaf [lbracket, rbracket] rfl rfl ?_ ?_
  · simp only [Tariff.symbols_cons, Tariff.symbols_nil]
    omega
  · exact (Fragment.paid_buildObject hb).andThen fun _ => hi.builds

/-! ## Plain statements -/

/-- The semicolon of a statement is a mark and no symbol, so it has no price. -/
theorem paid_withSemicolon (node : Node) (finish : Nat) :
    Paid tariff place (tariff.tree node) (withSemicolon node finish) tariff.tree :=
  (Paid.terminates _ _).andThen fun _ => .pure (tariff.tree_mark _ _).le

/-- Whether it owns its semicolon makes no difference to the price of a node. -/
theorem paid_mark {marks : Recover Bool} (node : Node) (h : Pays tariff place 0 marks) :
    Pays tariff place (tariff.tree node) (do
      attach { node with ownsSemicolon := ← marks }) :=
  h.andThen fun _ => (Paid.attach _).afford (tariff.tree_mark _ _).le

/-- The statement is the last child when it is marked, and it keeps its price. -/
theorem paid_expressionStatement {expression : Fragment}
    (h : Pays tariff place 0 expression.build) :
    Pays tariff place 0 (expressionStatement expression) := by
  refine h.andThen fun _ => Paid.inspect (fun {session later _} _ hrun => ?_) fun stack _ => ?_
  · cases hlast : session.stack.lastChild? with
    | none =>
      rw [hlast] at hrun
      cases hrun
      exact .refl (Nat.le_refl _)
    | some statement =>
      rw [hlast] at hrun
      cases hrun
      exact Paid.spent_replaceLast hlast (tariff.tree_mark _ _).le (Nat.le_refl _)
  · split
    · exact fun _ => rfl
    · exact fun _ => rfl

/-- The semicolon is no symbol of the statement, which is free. -/
theorem paid_emptyStatement (range : Range) : Pays tariff place 0 (emptyStatement range) :=
  (Paid.rangeSpan _ _).andThen fun _ => (Paid.attach _).afford (tariff.tree_mk _ _ _ _).le

/-- The keyword is no symbol of the node, so only the value is paid for. -/
theorem paid_throwStatement (range : Range) {value : Fragment} (h : value.Paid tariff) :
    Pays tariff place 0 (throwStatement range value) := by
  refine (Paid.rangeSpan _ _).andThen fun span => ?_
  refine (Paid.withinBare rfl rfl h.builds).bind fun node => ?_
  exact .attached (paid_withSemicolon _ _)

/-- A generated `return` stands for its value, any other is a node without symbols around it. -/
theorem paid_returnStatement (range : Range) {value : Option Fragment} (isGenerated : Bool)
    (h : ∀ part ∈ value, part.Paid tariff) :
    Pays tariff place 0 (returnStatement range value isGenerated) := by
  unfold returnStatement
  split
  · exact Fragment.paid_buildOptional h
  · refine (Paid.rangeSpan _ _).andThen fun span => ?_
    refine (Paid.withinBare rfl rfl ?_).bind fun node => .attached (paid_withSemicolon _ _)
    cases value with
    | some part => exact (h part rfl).builds
    | none => exact .attachEmpty _

/-- A label is a name, so its symbol is free wherever it is put. -/
theorem paid_jumpLabel (range : Range) (keyword label : String) :
    Paid tariff place 0 (jumpLabel range keyword label) tariff.symbol := by
  refine Paid.source (Paid.settleFree.andThen fun offset => (Paid.symbolAt _ offset).afford ?_)
  exact (tariff.symbol_literal _ rfl).le

/-- The label is the only symbol, and jumps without one have none. -/
theorem paid_jump (range : Range) (kind : JumpKind) (label : Option String) :
    Pays tariff place 0 (jump range kind label) := by
  refine (Paid.rangeSpan _ _).andThen fun span => ?_
  have hlabel : Paid tariff place 0 (label.mapM (jumpLabel range kind.keyword))
      fun located => tariff.symbols located.toList := by
    cases label with
    | none => exact .pure (Nat.le_refl _)
    | some label => exact (paid_jumpLabel _ _ _).bind fun symbol => .pure (Nat.le_refl _)
  refine hlabel.bind fun located => (paid_mark _ (.endsWithSemicolon _)).afford ?_
  cases kind <;> exact (tariff.tree_leaf _ _).le

/-- The label is held back until the node is open, the colon is paid for before. -/
theorem paid_labelled (range : Range) (label : String) {body : BlockFragment}
    (h : body.Paid tariff) : Pays tariff place 0 (labelled range label body) := by
  refine (Paid.rangeSpan _ _).andThen fun span => ?_
  refine (Paid.find _ _ _ (by decide)).bind fun colon => ?_
  refine (Paid.identifier _ _ _).bind fun name => ?_
  refine .enterSpending (tariff.tree name) [colon] rfl rfl ?_ ?_
  · simp only [Tariff.symbols_cons, Tariff.symbols_nil]
    omega
  · exact (Paid.attach name).payOff fun _ => h.builds

/-! ## Branching statements -/

/-- The parentheses are paid for, a missing branch is filled with a node that is free. -/
theorem paid_ifElse (range : Range) {test : Fragment} {pass : BlockFragment}
    {fail : Option BlockFragment} (ht : test.Paid tariff) (hp : pass.Paid tariff)
    (hf : ∀ block ∈ fail, block.Paid tariff) :
    Pays tariff place 0 (ifElse range test pass fail) := by
  refine (Paid.rangeSpan _ _).andThen fun span => ?_
  refine (Paid.find _ _ _ (by decide)).bind fun lparen => ?_
  refine (Paid.find _ _ _ (by decide)).bind fun rparen => ?_
  refine .enterLeaf [lparen, rparen] rfl rfl ?_ ?_
  · simp only [Tariff.symbols_cons, Tariff.symbols_nil]
    omega
  · refine ht.builds.andThen fun _ => hp.builds.andThen fun _ => ?_
    cases fail with
    | some fail => exact (hf fail rfl).builds.andThen fun _ => .expectChildren 3
    | none =>
      refine Paid.getStack.andThen fun stack => ?_
      exact (Paid.attachEmpty _).andThen fun _ => .expectChildren 3

/-- Parentheses and braces are looked for in turn, the clauses pay for themselves. -/
theorem paid_switch (range : Range) {subject : Fragment} {cases : List (Range × Recover Unit)}
    (hs : subject.Paid tariff) (hc : ∀ clause ∈ cases, Pays tariff .anywhere 0 clause.2) :
    Pays tariff place 0 (switch range subject cases) := by
  refine (Paid.rangeSpan _ _).andThen fun span => ?_
  refine (Paid.find _ _ _ (by decide)).bind fun lparen => ?_
  refine (Paid.find _ _ _ (by decide)).bind fun rparen => ?_
  refine (Paid.find _ _ _ (by decide)).bind fun lbrace => ?_
  refine (Paid.findEndingAt _ _ _ (by decide)).bind fun rbrace => ?_
  refine .enterLeaf [lparen, rparen, lbrace, rbrace] rfl rfl ?_ ?_
  · simp only [Tariff.symbols_cons, Tariff.symbols_nil]
    omega
  · exact hs.builds.andThen fun _ => Paid.forM fun clause hclause => (hc clause hclause).relax

/-- The colon has to be given, the span of the clause depends on where it is. -/
theorem paid_caseNode {clause : CaseFragment} (ht : ∀ test ∈ clause.test, test.Paid tariff)
    (hs : ∀ statement ∈ clause.statements, statement.Paid tariff) {kind : NodeKind}
    {colon : Symbol} (hkind : kind.symbols = [colon]) (hexport : kind.isExport = false) :
    Pays tariff place (tariff.symbol colon + 0) (caseNode clause kind colon) := by
  refine (Paid.rangeSpan _ _).andThen fun full => (Paid.mergeSpans _ _).andThen fun span => ?_
  refine .enterLeaf [colon] hkind hexport (Nat.le_refl _) ?_
  refine (Fragment.paid_buildOptional ht).andThen fun _ => ?_
  exact Paid.forM fun statement hstatement => (hs statement hstatement).builds

/-- A clause looks for its colon, whether it has a test or is the default. -/
theorem paid_switchCase {clause : CaseFragment} (ht : ∀ test ∈ clause.test, test.Paid tariff)
    (hs : ∀ statement ∈ clause.statements, statement.Paid tariff) :
    Pays tariff place 0 (switchCase clause) := by
  rw [switchCase]
  split
  · exact (Paid.find _ _ _ (by decide)).bind fun colon => paid_caseNode ht hs rfl rfl
  · exact (Paid.find _ _ _ (by decide)).bind fun colon => paid_caseNode ht hs rfl rfl

/-- The parentheses around the test are paid for before test and body are built. -/
theorem paid_whileLoop (range : Range) {test : Fragment} {body : BlockFragment}
    (ht : test.Paid tariff) (hb : body.Paid tariff) :
    Pays tariff place 0 (whileLoop range test body) := by
  refine (Paid.rangeSpan _ _).andThen fun span => ?_
  refine (Paid.find _ _ _ (by decide)).bind fun lparen => ?_
  refine (Paid.find _ _ _ (by decide)).bind fun rparen => ?_
  refine .enterLeaf [lparen, rparen] rfl rfl ?_ ?_
  · simp only [Tariff.symbols_cons, Tariff.symbols_nil]
    omega
  · exact ht.builds.andThen fun _ => hb.builds

/-- The semicolon behind the test is looked for when the loop has been paid for. -/
theorem paid_doLoop (range : Range) {test : Fragment} {body : BlockFragment}
    (ht : test.Paid tariff) (hb : body.Paid tariff) :
    Pays tariff place 0 (doLoop range test body) := by
  refine (Paid.rangeSpan _ _).andThen fun span => ?_
  refine (Paid.find _ _ _ (by decide)).bind fun lparen => ?_
  refine (Paid.find _ _ _ (by decide)).bind fun rparen => ?_
  refine (Paid.withinLeaf [lparen, rparen] rfl rfl ?_ ?_).payOff fun node => ?_
  · simp only [Tariff.symbols_cons, Tariff.symbols_nil]
    omega
  · exact hb.builds.andThen fun _ => ht.builds
  · exact paid_mark node (.endsWithSemicolon _)

/-- As for the loop, with the object in place of the test. -/
theorem paid_withScope (range : Range) {subject : Fragment} {body : BlockFragment}
    (hs : subject.Paid tariff) (hb : body.Paid tariff) :
    Pays tariff place 0 (withScope range subject body) := by
  refine (Paid.rangeSpan _ _).andThen fun span => ?_
  refine (Paid.find _ _ _ (by decide)).bind fun lparen => ?_
  refine (Paid.find _ _ _ (by decide)).bind fun rparen => ?_
  refine .enterLeaf [lparen, rparen] rfl rfl ?_ ?_
  · simp only [Tariff.symbols_cons, Tariff.symbols_nil]
    omega
  · exact hs.builds.andThen fun _ => hb.builds

/-! ## `try` statements -/

/-- The clause has no symbols, and the name of the exception is free. -/
theorem paid_catchClause (range : Range) (exception : Ident) {body : BlockFragment}
    (h : body.Paid tariff) : Pays tariff place 0 (catchClause range exception body) := by
  refine (Paid.rangeSpan _ _).andThen fun span => .enterBare rfl rfl ?_
  exact (paid_ident exception).andThen fun _ => h.builds

/-- The keyword pays for the node that is put around the third child. -/
theorem paid_finallyClause (finallyStart : Nat) :
    Pays tariff .inside 0 (finallyClause finallyStart) := by
  refine Paid.getStack.andThen fun stack => ?_
  split
  · refine (Paid.findWord _ _ _ (by decide)).bind fun keyword => ?_
    refine (Paid.mergeSpans _ _).andThen fun span => (Paid.wrapChild 2 _).afford ?_
    rw [Tariff.tree_leaf, tariff.kind_single rfl rfl]
    exact Nat.le_add_right _ _
  · exact Paid.getStack.andThen fun _ => .throw

/-- Without a finalizer the placeholder stays as it is. -/
theorem paid_finallyLast (finalizer : Option BlockFragment) :
    Pays tariff .inside 0 (finallyLast finalizer) := by
  cases finalizer with
  | none => exact .pure (Nat.le_refl _)
  | some finalizer => exact paid_finallyClause _

/-- Without a finalizer a placeholder is attached, which is free. -/
theorem paid_finallyBlock {finalizer : Option BlockFragment}
    (h : ∀ block ∈ finalizer, block.Paid tariff) (last : Nat) :
    Pays tariff place 0 (finallyBlock finalizer last) := by
  cases finalizer with
  | none => exact .attachEmpty _
  | some finalizer => exact (h finalizer rfl).builds

/-- To count the parts and to put them in order changes no price. -/
theorem paid_tryEnd (finalizer : Option BlockFragment) :
    Pays tariff .inside 0 (tryEnd finalizer) :=
  (Paid.expectChildren 3).andThen fun _ => (Paid.reorder _).andThen fun _ =>
    paid_finallyLast finalizer

/-- The finalizer is built first, which makes no difference to what is spent. -/
theorem paid_tryParts {body : BlockFragment} {catches : List (Recover Unit)}
    {finalizer : Option BlockFragment} (last : Nat) (hb : body.Paid tariff)
    (hc : ∀ clause ∈ catches, Pays tariff .anywhere 0 clause)
    (hf : ∀ block ∈ finalizer, block.Paid tariff) :
    Pays tariff .inside 0 (tryParts body catches finalizer last) := by
  refine (paid_finallyBlock hf last).andThen fun _ => hb.builds.andThen fun _ => ?_
  refine (Paid.forM fun clause hclause => (hc clause hclause).relax).andThen fun _ => ?_
  dsimp only
  split
  · exact Paid.getStack.andThen fun stack => (Paid.attachEmpty _).andThen fun _ =>
      paid_tryEnd finalizer
  · exact paid_tryEnd finalizer

/-- The statement has no symbols, so its price is that of its parts. -/
theorem paid_tryCatch (range : Range) {body : BlockFragment} {catches : List (Recover Unit)}
    {finalizer : Option BlockFragment} (hb : body.Paid tariff)
    (hc : ∀ clause ∈ catches, Pays tariff .anywhere 0 clause)
    (hf : ∀ block ∈ finalizer, block.Paid tariff) :
    Pays tariff place 0 (tryCatch range body catches finalizer) := by
  rw [tryCatch]
  refine (Paid.note _).andThen fun _ => (Paid.rangeSpan _ _).andThen fun span => ?_
  split
  · exact Paid.throw
  · exact .enterBare rfl rfl (paid_tryParts span.last hb hc hf)

/-! ## Loops -/

/-- A clause that is not written is filled with a placeholder, which is free. -/
theorem paid_clause {fragment : Option Fragment} (placeholder : Nat)
    (h : ∀ part ∈ fragment, part.Paid tariff) :
    Pays tariff place 0 (clause fragment placeholder) := by
  cases fragment with
  | some part => exact (h part rfl).builds
  | none => exact .attachEmpty _

/-- Declarations moved into the header bring their price along. -/
theorem paid_firstClause (declaration : Option Node) {init : Option Fragment} (placeholder : Nat)
    (h : ∀ part ∈ init, part.Paid tariff) :
    Pays tariff place (declaration.elim 0 tariff.tree)
      (firstClause declaration init placeholder) := by
  cases declaration with
  | some node => exact .attach node
  | none => exact paid_clause _ h

/-- A body that leaves no node behind is replaced by an empty block, which is free. -/
theorem paid_loopBody {body : BlockFragment} (h : body.Paid tariff) :
    Pays tariff place 0 (loopBody body) := by
  refine Paid.getStack.andThen fun before => h.builds.andThen fun _ => ?_
  refine Paid.getStack.andThen fun after => ?_
  split
  · exact (Paid.rangeSpan _ _).andThen fun span => (Paid.attach _).afford (tariff.tree_leaf _ _).le
  · exact .pure (Nat.le_refl _)

section Loops

variable {loop : LoopFragment} (declaration : Option Node)

/-- The opening parenthesis and the declarations have to be given, three more symbols are looked
for. -/
theorem paid_classicLoop (span : Span) (lparen : Symbol) (initEnd : Nat) (h : loop.Paid tariff) :
    Pays tariff place (tariff.symbol lparen + declaration.elim 0 tariff.tree)
      (classicLoop loop declaration span lparen initEnd) := by
  refine (Paid.find _ _ _ (by decide)).bind fun semi1 => ?_
  refine (Paid.find _ _ _ (by decide)).bind fun semi2 => ?_
  refine (Paid.findLast _ _ _ (by decide)).bind fun rparen => ?_
  refine .enterSpending (declaration.elim 0 tariff.tree)
    [lparen, semi1, semi2, rparen] rfl rfl ?_ ?_
  · simp only [Tariff.symbols_cons, Tariff.symbols_nil]
    omega
  · refine (paid_firstClause declaration _ h.init).payOff fun _ => ?_
    refine (paid_clause _ h.test).andThen fun _ => (paid_clause _ h.update).andThen fun _ => ?_
    exact (paid_loopBody h.body).andThen fun _ => .expectChildren 4

/-- The keyword between the clauses is looked for as a word, `in` or `of`. -/
theorem paid_rangingLoop (span : Span) (lparen : Symbol) (initEnd : Nat) (h : loop.Paid tariff) :
    Pays tariff place (tariff.symbol lparen + declaration.elim 0 tariff.tree)
      (rangingLoop loop declaration span lparen initEnd) := by
  have hword : (if loop.kind == .keys then "in" else "of") ≠ "" := by split <;> decide
  refine (Paid.findWord _ _ _ hword).bind fun keyword => ?_
  refine (Paid.findLast _ _ _ (by decide)).bind fun rparen => ?_
  refine .enterSpending (declaration.elim 0 tariff.tree) [lparen, keyword, rparen] ?_ ?_ ?_ ?_
  · split <;> rfl
  · split <;> rfl
  · simp only [Tariff.symbols_cons, Tariff.symbols_nil]
    omega
  · refine (paid_firstClause declaration _ h.init).payOff fun _ => ?_
    refine (paid_clause _ h.update).andThen fun _ => ?_
    exact (paid_loopBody h.body).andThen fun _ => .expectChildren 3

/-- The opening parenthesis is paid for here, for each of the three kinds. -/
theorem paid_forLoop (h : loop.Paid tariff) :
    Pays tariff place (declaration.elim 0 tariff.tree) (forLoop loop declaration) := by
  refine (Paid.rangeSpan _ _).andThen fun span => ?_
  refine (Paid.find _ _ _ (by decide)).bind fun lparen => ?_
  dsimp only
  split
  · exact paid_classicLoop _ _ _ _ h
  · exact paid_rangingLoop _ _ _ _ h
  · exact paid_rangingLoop _ _ _ _ h

end Loops

/-! ## Functions -/

/-- The brackets of a computed key are looked for to place the node, which has no symbols. -/
theorem paid_key {member : MemberFragment} (h : member.Paid tariff) :
    Pays tariff place 0 (key member) := by
  unfold key
  split
  · exact h.key.builds
  · refine (Paid.findLast _ _ _ (by decide)).pays.andThen fun lbracket => ?_
    refine (Paid.find _ _ _ (by decide)).pays.andThen fun rbracket => ?_
    exact (Paid.mergeSpans _ _).andThen fun span => .enterBare rfl rfl h.key.builds

/-- The opening parenthesis is taken only if it is written, so it spells the text. -/
theorem paid_arrowParens (function : FunctionFragment) :
    Paid tariff place 0 (arrowParens function) fun parens => parens.elim 0 tariff.parens := by
  refine Paid.source (Paid.settleFree.andThen fun arrow => ?_)
  split
  · exact .pure (Nat.le_refl _)
  · next hparen =>
    have hbyte : scope.source.byteAt function.range.start = some 0x28 := by simpa using hparen
    refine (Paid.settleAt .rightParen (Source.locates_locateLast (by decide))).bind fun rparen => ?_
    have hfree := tariff.symbol_at (Source.spells_leftParen hbyte)
    refine .pure ?_
    dsimp only [Option.elim, Tariff.parens]
    omega

/-- Either parenthesis may be at a fallback position, which the warnings pay for. -/
theorem paid_functionParens (function : FunctionFragment) (nameEnd : Nat) :
    Paid tariff place 0 (functionParens function nameEnd) tariff.parens := by
  refine Paid.source ?_
  refine (Paid.settleAt .leftParen (Source.locates_locate (by decide))).bind fun lparen => ?_
  refine (Paid.settleAt .rightParen (Source.locates_locateLast (by decide))).bind fun rparen => ?_
  refine .pure ?_
  dsimp only [Tariff.parens]
  omega

/-- The parentheses have to be given if there are any. -/
theorem paid_parameterNode (function : FunctionFragment) (parens : Option (Nat × Nat)) :
    Paid tariff place (parens.elim 0 tariff.parens) (parameterNode function parens)
      tariff.tree := by
  cases parens with
  | some places =>
    refine (Paid.symbolAt _ _).spend fun lparen => ?_
    refine ((Paid.symbolAt _ _).spend fun rparen => ?_).afford (Nat.add_comm _ _).le
    refine (Paid.mergeSpans _ _).andThen fun span => .pure ?_
    rw [Tariff.tree_leaf, tariff.kind_symbols [lparen, rparen] rfl rfl]
    simp only [Tariff.symbols_cons, Tariff.symbols_nil]
    omega
  | none =>
    unfold parameterNode
    dsimp only
    split
    · exact (Paid.rangeSpan _ _).andThen fun span => .pure (tariff.tree_leaf _ _).le
    · exact .pure (tariff.tree_leaf _ _).le

/-- The places of the parentheses are paid for before the symbols are made. -/
theorem paid_parameterList (function : FunctionFragment) (nameEnd : Nat) :
    Paid tariff place 0 (parameterList function nameEnd) tariff.tree := by
  unfold parameterList
  dsimp only
  split
  · exact (paid_arrowParens function).bind fun parens => paid_parameterNode function parens
  · exact (paid_functionParens function nameEnd).bind fun parens =>
      paid_parameterNode function (some parens)

/-- An ellipsis that is not found is left out instead of being placed somewhere. -/
theorem paid_restElement (parameter : Ident) (ellipsis : Option Symbol) :
    Pays tariff place (ellipsis.elim 0 tariff.symbol) (restElement parameter ellipsis) := by
  refine (Paid.rangeSpan _ _).andThen fun span => ?_
  refine (Paid.identifier _ _ _).bind fun name => (Paid.attach _).afford ?_
  rw [Tariff.tree_branch, tariff.kind_symbols ellipsis.toList rfl rfl]
  simp only [Tariff.symbols_toList, Tariff.trees_cons, Tariff.trees_nil]
  omega

/-- The ellipsis is not made up: where it is missing only the name is there. -/
theorem paid_restParameter (parameter : Ident) :
    Pays tariff place 0 (restParameter parameter) := by
  rw [restParameter]
  refine Paid.source (Paid.gapStart.andThen fun _ => ?_)
  refine (Paid.settleAt? .ellipsis (Source.locates_locateLast (by decide))).bind fun found => ?_
  cases found with
  | none => exact paid_restElement parameter none
  | some offset =>
    exact (Paid.symbolAt _ _).payOff fun symbol => paid_restElement parameter (some symbol)

/-- The equals sign is the symbol of the node, the name is held back until it is open. -/
theorem paid_defaultParameter (parameter : Ident) {value : Fragment} (h : value.Paid tariff) :
    Pays tariff place 0 (defaultParameter parameter value) := by
  refine (Paid.find _ _ _ (by decide)).bind fun equal => (Paid.rangeSpan _ _).andThen fun span => ?_
  refine (Paid.identifier _ _ _).bind fun name => ?_
  refine .enterSpending (tariff.tree name) [equal] rfl rfl ?_ ?_
  · simp only [Tariff.symbols_cons, Tariff.symbols_nil]
    omega
  · exact (Paid.attach name).payOff fun _ => h.builds

/-- A parameter that cannot be recovered leaves a warning and a name, both of which are free. -/
theorem paid_parameter {function : FunctionFragment} (parameter : Ident)
    (h : function.Paid tariff) : Pays tariff place 0 (Rule.parameter function parameter) := by
  have hname : Pays tariff place 0 (do
      attach (← identifier parameter.range.start parameter.range.finish parameter.name)) :=
    .attached (.identifier _ _ _)
  exact parameter_cases (fun _ => paid_restParameter parameter)
    (fun value hvalue => paid_defaultParameter parameter (h.defaults _ hvalue))
    ((Paid.note _).andThen fun _ => hname) hname

/-- The list is paid for before it is opened, each parameter when it is built. -/
theorem paid_parameters {function : FunctionFragment} (nameEnd : Nat) (h : function.Paid tariff) :
    Pays tariff place 0 (parameters function nameEnd) := by
  refine (paid_parameterList function nameEnd).bind fun list => .enter ?_
  exact Paid.forM fun parameter _ => paid_parameter parameter h

/-- The keyword is looked for to find the start and does not get into the tree. -/
theorem paid_functionKeyword (nameStart : Nat) :
    Pays tariff place 0 (functionKeyword nameStart) :=
  Paid.source (Paid.gapStart.andThen fun _ => .settleFree)

/-- No symbol is placed to find out where a function starts. -/
theorem paid_functionStart (function : FunctionFragment) (member : Option MemberFragment) :
    Pays tariff place 0 (functionStart function member) := by
  cases member with
  | some member => exact .pure (Nat.le_refl _)
  | none =>
    unfold functionStart
    dsimp only
    split
    · exact .pure (Nat.le_refl _)
    · split
      · exact paid_functionKeyword _
      · exact .pure (Nat.le_refl _)

/-- The name of a method is its key, a function without a name gets a placeholder. -/
theorem paid_functionName (function : FunctionFragment) {member : Option MemberFragment}
    (h : ∀ part ∈ member, part.Paid tariff) :
    Pays tariff place 0 (functionName function member) := by
  cases member with
  | some member => exact paid_key (h member rfl)
  | none =>
    unfold functionName
    dsimp only
    split
    · exact .pure (Nat.le_refl _)
    · split
      · exact .attachEmpty _
      · exact .attached (.identifier _ _ _)

/-- The node of a function has no symbols, parameters and body pay for themselves. -/
theorem paid_functionNode {function : FunctionFragment} {member : Option MemberFragment}
    (hf : function.Paid tariff) (hm : ∀ part ∈ member, part.Paid tariff) :
    Paid tariff place 0 (functionNode function member) tariff.tree := by
  refine (paid_functionStart function member).andThen fun start => ?_
  refine (Paid.rangeSpan _ _).andThen fun span => ?_
  refine .withinBare (symbols_functionNodeKind _ _) (isExport_functionNodeKind _ _) ?_
  refine (paid_functionName function hm).andThen fun _ => ?_
  exact (paid_parameters _ hf).andThen fun _ => hf.body.builds

/-! ## Exported declarations -/

/-- Being an export statement is paid for by the status of the declaration. -/
theorem paid_wrapExport (node : Node) (isDefault : Bool) (windowStart : Nat) :
    Paid tariff place (tariff.tree node + tariff.statement) (wrapExport node isDefault windowStart)
      tariff.tree := by
  refine (Paid.findLastWord? _ _ _ (by decide)).bind fun keyword => ?_
  refine (Paid.spanBetween _ _).andThen fun span => .pure ?_
  have hkind : tariff.kind (.exportStatement keyword isDefault none) =
      keyword.elim 0 tariff.symbol + tariff.statement := by
    rw [← tariff.symbols_toList keyword, ← List.append_nil keyword.toList]
    rfl
  rw [Tariff.tree_mk, hkind, Tariff.trees_cons, Tariff.trees_nil, Tariff.tree_mark]
  omega

/-- The price of the status is the price of the wrapping, zero if there is none. -/
theorem paid_exportIf (status : ExportStatus) (node : Node) (windowStart : Nat) :
    Paid tariff place (tariff.tree node + tariff.status status) (exportIf status node windowStart)
      tariff.tree := by
  unfold exportIf Tariff.status
  split
  · exact paid_wrapExport node _ _
  · exact .pure (Nat.le_refl _)

/-- A declaration can be attached, in an export statement if it has the given status, for what the
declaration and its status are worth. -/
def Exports (tariff : Tariff scope.source) (place : Place) (status : ExportStatus)
    (worth : Nat) : Prop :=
  ∀ (node : Node) (windowStart : Nat), Pays tariff place (tariff.tree node + worth) (do
    attach (← exportIf status node windowStart))

/-- Declarations of the name can be attached at no further cost, once their status is known. -/
def Exportable (tariff : Tariff scope.source) (place : Place) (name : String) : Prop :=
  ∃ worth : ExportStatus → Nat, Paid tariff place 0 (exportStatus name) worth ∧
    ∀ status, Exports tariff place status (worth status)

/-- To give what the status is worth is always enough. -/
theorem exports_priced (status : ExportStatus) :
    Exports tariff place status (tariff.status status) :=
  fun node windowStart => .attached (paid_exportIf status node windowStart)

/-- A name that is hidden leads to no export statement. -/
theorem exportable_of_hides {name : String} (h : tariff.HidesName name) :
    Exportable tariff place name := by
  have hworth : tariff.status (.of scope.info name) = 0 := by
    by_cases hfree : tariff.statement = 0
    · rw [Tariff.status, hfree, ite_self]
    · rw [h.hidden (.inr hfree)]
      rfl
  exact ⟨tariff.status, .exportStatus hworth fun hdiscreet => h.hidden (.inl hdiscreet),
    exports_priced⟩

/-- Only a declared function can be wrapped, so only for one does its name matter. -/
theorem paid_functionExpression {function : FunctionFragment} (h : function.Paid tariff)
    (hname : (function.isDeclared && !function.isAnonymous && !function.isMethod) = true →
      Exportable tariff place function.name.name) :
    Pays tariff place 0 (functionExpression function) := by
  refine (Paid.note _).andThen fun _ => Paid.gapStart.andThen fun windowStart => ?_
  refine (paid_functionNode h fun _ hnone => by cases hnone).bind fun node => ?_
  dsimp only
  split
  · next hdeclared =>
    obtain ⟨worth, hstatus, hexports⟩ := hname hdeclared
    refine hstatus.bind fun status => ?_
    have hattach := (hexports status node windowStart).payOff fun _ => Paid.skipNextName
    rw [bind_assoc] at hattach
    exact hattach.afford (by omega)
  · rw [pure_bind]
    refine ((paid_exportIf .hidden node _).afford ?_).payOff fun wrapped => ?_
    · exact Nat.le_refl _
    · exact (Paid.attach wrapped).payOff fun _ => .pure (Nat.le_refl _)

/-! ## Members -/

/-- A shorthand has no colon to be paid for. -/
theorem paid_pair {member : MemberFragment} {value : Fragment} (hm : member.Paid tariff)
    (hv : value.Paid tariff) : Pays tariff place 0 (pair member value) := by
  refine (Paid.rangeSpan _ _).andThen fun span => ?_
  split
  · exact .enterBare rfl rfl hm.key.builds
  · refine (Paid.find _ _ _ (by decide)).bind fun colon => ?_
    refine .enterLeaf [colon] rfl rfl (Nat.le_refl _) ?_
    exact (paid_key hm).andThen fun _ => hv.builds

/-- What is looked for here sets the start of the accessor and is not placed. -/
theorem paid_accessorRange (member : MemberFragment) (function : FunctionFragment)
    (accessor : Accessor) (ownsKey : Bool) :
    Pays tariff place 0 (accessorRange member function accessor ownsKey) := by
  unfold accessorRange
  dsimp only
  split
  · exact .pure (Nat.le_refl _)
  · refine Paid.source (Paid.gapStart.andThen fun _ => ?_)
    exact Paid.settleFree.andThen fun _ => .pure (Nat.le_refl _)

/-- Of the parts of the function no more than all are kept. -/
theorem paid_accessorParts {function : FunctionFragment} (accessor : Accessor)
    (h : function.Paid tariff) : Pays tariff .inside 0 (accessorParts function accessor) := by
  refine (paid_functionNode h fun _ hnone => by cases hnone).bind fun node => ?_
  have hle : tariff.trees node.children.reverse ≤ tariff.tree node := by
    rw [tariff.trees_reverse]
    exact tariff.below_le node
  generalize node.children.reverse = parts at hle
  have hfirst : tariff.trees parts.head?.toList ≤ tariff.trees parts := by
    cases parts with
    | nil => exact Nat.le_refl _
    | cons part rest => exact Nat.add_le_add_left (Nat.zero_le _) _
  have hboth : tariff.trees (parts.drop 1).head?.toList + tariff.trees parts.head?.toList ≤
      tariff.trees parts := by
    obtain _ | ⟨part, _ | ⟨other, rest⟩⟩ := parts <;>
      simp only [List.drop, List.head?, Option.toList, Tariff.trees_cons, Tariff.trees_nil] <;>
      omega
  dsimp only
  split
  · refine ((Paid.forM_attach _).spend fun _ => ?_).afford (hboth.trans hle)
    exact (Paid.forM_attach _).afford (Nat.zero_add _).ge
  · exact (Paid.forM_attach _).afford (hfirst.trans hle)

/-- A second accessor does not build the key again: it gets a name, which is free. -/
theorem paid_accessor {member : MemberFragment} {function : FunctionFragment}
    (accessor : Accessor) (ownsKey : Bool) (hm : member.Paid tariff) (hf : function.Paid tariff) :
    Pays tariff place 0 (Rule.accessor member function accessor ownsKey) := by
  rw [Rule.accessor]
  refine (paid_accessorRange _ _ _ _).andThen fun range => ?_
  refine (Paid.rangeSpan _ _).andThen fun span => ?_
  refine .enterBare (by cases accessor <;> rfl) (by cases accessor <;> rfl) ?_
  dsimp only
  split
  · exact (paid_key hm).andThen fun _ => paid_accessorParts accessor hf
  · exact (Paid.identifier _ _ _).bind fun name => (Paid.attach name).spend fun _ =>
      paid_accessorParts accessor hf

/-- The accessors of a member are paid for one after the other. -/
theorem paid_accessors {member : MemberFragment} (h : member.Paid tariff) :
    Pays tariff place 0 (accessors member) := by
  rw [accessors]
  refine Paid.forM fun written hwritten => paid_accessor _ _ h ?_
  have hmem := MemberFragment.mem_accessors (List.fst_mem_of_mem_zipIdx hwritten)
  exact hmem.elim (h.getter _) (h.setter _)

/-- The parts of a member pay for it, whether it is a pair, a method or accessors. -/
theorem paid_member {member : MemberFragment} (h : member.Paid tariff) :
    Pays tariff place 0 (Rule.member member) := by
  unfold Rule.member
  split
  · exact paid_accessors h
  · split
    · next function hvalue =>
      have hf : function.Paid tariff := h.value (.method function) hvalue
      refine .attached (paid_functionNode hf fun part hpart => ?_)
      cases hpart
      exact h
    · next value hvalue => exact paid_pair h (h.value (.expression value) hvalue)
    · exact (Paid.rangeSpan _ _).andThen fun span => .throw

/-! ## Classes -/

/-- The braces are looked for behind what was built so far and at the end of the class. -/
theorem paid_classBody {definition : ClassFragment} (h : definition.Paid tariff) :
    Pays tariff place 0 (classBody definition) := by
  refine (Paid.find _ _ _ (by decide)).bind fun lbrace => ?_
  refine (Paid.findEndingAt _ _ _ (by decide)).bind fun rbrace => ?_
  refine (Paid.mergeSpans _ _).andThen fun span => .enterLeaf [lbrace, rbrace] rfl rfl ?_ ?_
  · simp only [Tariff.symbols_cons, Tariff.symbols_nil]
    omega
  · exact Paid.forM fun element hmem => (h.elements element (List.mem_mergeSort.1 hmem)).relax

/-- The name is attached last and moved in front, which changes no price. -/
theorem paid_classNode {definition : ClassFragment} (name : Option Ident)
    (h : definition.Paid tariff) :
    Paid tariff place 0 (classNode definition name) tariff.tree := by
  refine (Paid.note _).andThen fun _ => (Paid.rangeSpan _ _).andThen fun span => ?_
  refine .withinBare rfl rfl ?_
  refine (Fragment.paid_buildOptional h.heritage).andThen fun _ => (paid_classBody h).andThen ?_
  intro _
  cases name with
  | none => exact .pure (Nat.le_refl _)
  | some name =>
    refine (Paid.identifier _ _ _).bind fun node => (Paid.attach node).payOff fun _ => ?_
    refine Paid.getStack.andThen fun stack => ?_
    split
    · exact .reorder _
    · exact .reorder _

/-- A class that is an expression is never wrapped. -/
theorem paid_classExpression {definition : ClassFragment} (h : definition.Paid tariff) :
    Pays tariff place 0 (classExpression definition) :=
  .attached (paid_classNode _ h)

/-! ## Bindings -/

/-- The name is free, so the value is all that is paid for. -/
theorem paid_valueAndName {binding : BindingFragment}
    (h : Pays tariff place 0 (Fragment.buildOptional binding.init)) :
    Pays tariff place 0 (valueAndName binding) :=
  h.andThen fun _ => paid_ident _

/-- The parts are put in order or completed by a placeholder, both for free. -/
theorem paid_declarationParts {binding : BindingFragment} (span : Span) (h : binding.Paid tariff) :
    Pays tariff place 0 (declarationParts binding span) := by
  refine (paid_valueAndName (Fragment.paid_buildOptional h)).andThen fun _ => ?_
  refine Paid.getStack.andThen fun stack => ?_
  split
  · exact .reorder _
  · exact .attachEmpty _
  · exact .throw

/-- The equals sign is looked for only if there is a value behind it. -/
theorem paid_declaration {binding : BindingFragment} (h : binding.Paid tariff) :
    Paid tariff place 0 (declaration binding) tariff.tree := by
  refine (Paid.rangeSpan _ _).andThen fun span => ?_
  have hnode : ∀ equal : Option Symbol, Paid tariff place (equal.elim 0 tariff.symbol)
      (within (.leaf (.declaration equal) span) (declarationParts binding span)) tariff.tree := by
    intro equal
    refine .withinLeaf equal.toList rfl rfl ?_ (paid_declarationParts span h)
    rw [Tariff.symbols_toList]
  dsimp only
  split
  · exact (Paid.find _ _ _ (by decide)).bind fun equal => hnode (some equal)
  · exact hnode none

/-- The node gets one more child and a wider span, the session is left alone. -/
theorem ok_of_addDeclarator {declarator node made : Node} {session later : Session}
    (h : (addDeclarator declarator node).outcome scope session = (.ok made, later)) :
    later = session ∧
      ∃ span, made = { node with span := span, children := node.children ++ [declarator] } := by
  obtain ⟨span, _, hspan, hmade⟩ := ok_of_bind h
  obtain ⟨-, rfl⟩ := ok_of_orFail hspan
  cases hmade
  exact ⟨rfl, span, rfl⟩

/-- The declarator goes behind the others, be it below the statement or below the declarations that
the statement exports. -/
theorem ok_of_extendVariables {statement declarator made : Node} {session later : Session}
    (h : (extendVariables statement declarator).outcome scope session = (.ok made, later))
    (hvar : statement.declaresVariables = true) :
    later = session ∧ made.kind = statement.kind ∧
      (made.children = statement.children ++ [declarator] ∨
        ∃ last span, statement.children.getLast? = some last ∧
          made.children = statement.children.dropLast ++
            [{ last with span := span, children := last.children ++ [declarator] }]) := by
  unfold extendVariables at h
  split at h
  · obtain ⟨rfl, span, rfl⟩ := ok_of_addDeclarator h
    exact ⟨rfl, rfl, .inl rfl⟩
  · next hplain =>
    obtain ⟨span, _, hspan, hrest⟩ := ok_of_bind h
    obtain ⟨-, rfl⟩ := ok_of_orFail hspan
    obtain ⟨exported, middle, hexported, hmade⟩ := ok_of_bind hrest
    cases hmade
    cases hlast : statement.lastChild? with
    | none =>
      rw [Node.declaresVariables, hlast, Bool.eq_false_iff.2 hplain] at hvar
      simp at hvar
    | some last =>
      rw [hlast, Option.toList_some, List.mapM_cons] at hexported
      obtain ⟨extended, _, hextended, hnil⟩ := ok_of_bind hexported
      obtain ⟨rfl, wide, rfl⟩ := ok_of_addDeclarator hextended
      cases hnil
      exact ⟨rfl, rfl, .inr ⟨last, wide, hlast, rfl⟩⟩

/-- To find the node that the declarator goes to, the metadata is not asked. -/
theorem blind_extendVariables (statement declarator : Node) :
    Blind scope (extendVariables statement declarator) := by
  have hadd : ∀ node, Blind scope (addDeclarator declarator node) :=
    fun node => Blind.orFail.bind fun _ _ => rfl
  unfold extendVariables
  split
  · exact hadd statement
  · refine Blind.orFail.bind fun span => Blind.bind ?_ fun _ _ => rfl
    cases statement.lastChild? with
    | none => exact fun _ => rfl
    | some last =>
      rw [Option.toList_some, List.mapM_cons]
      exact (hadd last).bind fun _ _ => rfl

/-- A further declarator costs what it is worth, wherever it goes. -/
theorem paid_continuedVariable {binding : BindingFragment} (h : binding.Paid tariff) :
    Pays tariff place 0 (continuedVariable binding) := by
  refine (paid_declaration h).bind fun declarator => ?_
  refine (Paid.terminates _ _).andThen fun terminated => Paid.inspect ?_ ?_
  · intro session later _ _ hrun
    cases hlast : session.stack.lastChild? with
    | none =>
      rw [hlast] at hrun
      cases hrun
    | some statement =>
      rw [hlast] at hrun
      dsimp only at hrun
      split at hrun
      · next hvar =>
        obtain ⟨made, middle, hextend, hreplace⟩ := ok_of_bind hrun
        obtain ⟨rfl, hkind, hchildren⟩ := ok_of_extendVariables hextend hvar
        cases hreplace
        -- The declarator becomes the last child or, below an export, the last child of that one.
        -- Its price is added once in both cases.
        have hbelow :
            tariff.below made ≤ tariff.below statement + (tariff.tree declarator + 0) := by
          rcases hchildren with heq | ⟨last, span, hchild, heq⟩
          · rw [Tariff.below, heq, Tariff.trees_append, Tariff.trees_cons, Tariff.trees_nil]
            exact Nat.le_refl _
          · rw [Tariff.below, Tariff.below, heq, tariff.trees_dropLast hchild, Tariff.trees_append,
              tariff.tree_eq last]
            simp only [Tariff.trees_cons, Tariff.trees_nil, Tariff.tree_mk, Tariff.trees_append,
              Tariff.below]
            omega
        refine Paid.spent_replaceLast hlast ?_ hbelow
        rw [Tariff.tree_mark, Tariff.tree_eq, Tariff.tree_eq, hkind, Nat.add_assoc]
        exact Nat.add_le_add_left hbelow _
      · cases hrun
  · intro stack _
    split
    · split
      · exact (blind_extendVariables _ _).bind fun _ _ => rfl
      · exact fun _ => rfl
    · exact fun _ => rfl

/-- The keyword has to be given, the status of the name pays for the wrapping. -/
theorem paid_variableStatement {binding : BindingFragment} (keywordStart windowStart : Nat)
    (h : binding.Paid tariff) (hname : Exportable tariff place binding.name.name) :
    Pays tariff place (tariff.symbol ((Token.keyword binding.kind.keyword).at keywordStart))
      (variableStatement binding keywordStart windowStart) := by
  refine (Paid.symbolAt _ _).payOff fun keyword => (paid_declaration h).bind fun declarator => ?_
  refine (Paid.spanBetween _ _).andThen fun span => ?_
  refine (Paid.terminates _ _).andThen fun terminated => ?_
  obtain ⟨worth, hstatus, hexports⟩ := hname
  refine hstatus.bind fun status => (hexports status _ _).afford ?_
  rw [Tariff.tree_mark, Tariff.tree_branch, tariff.kind_single rfl rfl, Tariff.trees_cons,
    Tariff.trees_nil]
  omega

/-- There is something to look for, whatever the keyword of the binding. -/
theorem keyword_ne (kind : BindingKind) : kind.keyword ≠ "" := by
  cases kind <;> decide

/-- A keyword that is found spells the text: in front of the name, or where the window starts. -/
theorem paid_ownKeyword (kind : BindingKind) (windowStart nameStart : Nat) :
    Paid tariff place 0 (ownKeyword kind.keyword windowStart nameStart)
      fun found => found.elim 0 fun offset =>
        tariff.symbol ((Token.keyword kind.keyword).at offset) := by
  have htoken : (Token.keyword kind.keyword).text ≠ "" := keyword_ne kind
  refine Paid.source ?_
  dsimp only
  split
  · next hword =>
    rw [Bool.and_eq_true] at hword
    exact .pure (tariff.symbol_at (Source.spells_of_hasWordAt htoken hword.2)).le
  · refine .pure (Nat.le_of_eq ?_)
    cases hfound : scope.source.findLastWord kind.keyword windowStart nameStart with
    | none => rfl
    | some offset => exact tariff.symbol_at (Source.spells_of_findLastWord htoken hfound)

/-- The keyword is placed at a fallback position only if no declaration can be continued. -/
theorem paid_variableBinding {binding : BindingFragment} (h : binding.Paid tariff)
    (hname : Exportable tariff place binding.name.name) :
    Pays tariff place 0 (variableBinding binding) := by
  refine Paid.gapStart.andThen fun windowStart => ?_
  refine (paid_ownKeyword _ _ _).bind fun keyword => ?_
  cases keyword with
  | some offset => exact paid_variableStatement _ _ h hname
  | none =>
    refine Paid.getStack.andThen fun stack => ?_
    split
    · exact paid_continuedVariable h
    · refine Paid.source ?_
      refine (Paid.settleAt (.keyword binding.kind.keyword)
        (Source.locates_locateLastWord (keyword_ne _))).bind fun offset => ?_
      exact paid_variableStatement _ _ h hname

/-- This makes an export statement whatever the metadata says, so these have to be free. -/
theorem paid_defaultExport {binding : BindingFragment} (h : binding.Paid tariff)
    (hstatement : tariff.statement = 0) : Pays tariff place 0 (defaultExport binding) := by
  unfold defaultExport
  split
  · exact (Paid.rangeSpan _ _).andThen fun span => .throw
  · next init hinit =>
    refine Paid.gapStart.andThen fun windowStart => ?_
    refine (Paid.findLastWord? _ _ _ (by decide)).bind fun keyword => ?_
    refine (Paid.rangeSpan _ _).andThen fun span => ?_
    refine ((Paid.within (h init hinit).builds).afford ?_).payOff fun node => ?_
    · have hkind : tariff.kind (.exportStatement keyword true none) =
          keyword.elim 0 tariff.symbol + tariff.statement := by
        rw [← tariff.symbols_toList keyword, ← List.append_nil keyword.toList]
        rfl
      rw [Tariff.tree_leaf, hkind, hstatement]
    · exact Paid.takeSkip.andThen fun _ => paid_mark node (.terminates _ _)

/-- The class pays for itself, and what its status is worth has to be given. -/
theorem paid_exportedClass {definition : ClassFragment} (h : definition.Paid tariff)
    {status : ExportStatus} {worth : Nat} (windowStart : Nat) (name : Option Ident)
    (hexports : Exports tariff place status worth) :
    Pays tariff place (worth + 0) (exportedClass definition windowStart status name) :=
  (paid_classNode name h).bind fun node => hexports node windowStart

/-- A class without a name of its own is exported without asking for its status. -/
theorem paid_classDeclaration (name : Ident) {definition : ClassFragment}
    (h : definition.Paid tariff) (hname : Exportable tariff place name.name)
    (hdefault : name.name = defaultBindingName → Exports tariff place ⟨true, true⟩ 0) :
    Pays tariff place 0 (classDeclaration name definition) := by
  rw [classDeclaration]
  refine (Paid.note _).andThen fun _ => Paid.gapStart.andThen fun windowStart => ?_
  split
  · next heq => exact paid_exportedClass h windowStart none (hdefault (eq_of_beq heq))
  · obtain ⟨worth, hstatus, hexports⟩ := hname
    exact hstatus.bind fun status =>
      paid_exportedClass h windowStart (some name) (hexports status)

/-- A binding goes one of three ways, each of which has to be paid for. -/
theorem paid_binding {binding : BindingFragment}
    (hdefault : binding.name.name = defaultBindingName →
      Pays tariff place 0 (defaultExport binding))
    (hfunction : binding.name.name ≠ defaultBindingName → binding.isFunctionDeclaration = true →
      Pays tariff place 0 (valueAndName binding))
    (hvariable : binding.name.name ≠ defaultBindingName → binding.isFunctionDeclaration = false →
      Pays tariff place 0 (variableBinding binding)) :
    Pays tariff place 0 (Rule.binding binding) := by
  refine (Paid.note _).andThen fun _ => ?_
  split
  · next heq => exact hdefault (eq_of_beq heq)
  · next hne =>
    have hname : binding.name.name ≠ defaultBindingName := fun heq => hne (beq_iff_eq.2 heq)
    split
    · next hdeclares => exact hfunction hname hdeclares
    · next hdeclares => exact hvariable hname (Bool.eq_false_iff.2 hdeclares)

/-! ## Blocks -/

section Blocks

variable {statements : List StatementFragment}

/-- The braces are paid for before the statements are built. -/
theorem paid_bracedBlock (range : Range) (h : ∀ statement ∈ statements, statement.Paid tariff) :
    Pays tariff place 0 (bracedBlock range statements) := by
  refine (Paid.rangeSpan _ _).andThen fun _ => ?_
  refine (Paid.findAtOrAfter _ _ _ (by decide)).bind fun lbrace => ?_
  refine (Paid.findEndingAt _ _ _ (by decide)).bind fun rbrace => ?_
  refine (Paid.mergeSpans _ _).andThen fun span => .enterLeaf [lbrace, rbrace] rfl rfl ?_ ?_
  · simp only [Tariff.symbols_cons, Tariff.symbols_nil]
    omega
  · exact Paid.forM fun statement hmem => (h statement hmem).builds

/-- Only the last statement is built, the others repeat the parameters. -/
theorem paid_parameterBlock (range : Range) (h : ∀ statement ∈ statements, statement.Paid tariff) :
    Pays tariff place 0 (parameterBlock range statements) := by
  unfold parameterBlock
  split
  · next body hlast => exact (h body (List.mem_of_getLast? hlast)).builds
  · exact (Paid.rangeSpan _ _).andThen fun span => .throw

/-- To refuse a node that is no declaration costs nothing. -/
theorem paid_expectVar (node : Node) : Pays tariff place 0 (expectVar node) := by
  unfold expectVar
  split
  · exact .throw
  · exact .pure (Nat.le_refl _)

/-- The children of the second node come for what that node is worth. -/
theorem paid_appendDeclarators (combined node : Node) :
    Paid tariff place (tariff.tree combined + tariff.tree node) (appendDeclarators combined node)
      tariff.tree := by
  refine (paid_expectVar _).andThen fun _ => ?_
  have hspan : Pays tariff place 0
      (node.children.foldlM (fun span child => mergeSpans span child.span) combined.span) := by
    generalize combined.span = span
    induction node.children generalizing span with
    | nil => exact .pure (Nat.le_refl _)
    | cons child rest ih =>
      rw [List.foldlM_cons]
      exact (Paid.mergeSpans _ _).andThen fun wide => ih wide
  refine hspan.andThen fun span => .pure ?_
  have hbelow := tariff.below_le node
  rw [Tariff.tree_mk, Tariff.trees_append, tariff.tree_eq combined]
  change _ + (tariff.below combined + tariff.below node) ≤ _
  omega

/-- One statement takes the declarators of all, so nothing is paid for twice. -/
theorem paid_combineDeclarations (nodes : List Node) :
    Paid tariff place (tariff.trees nodes) (combineDeclarations nodes)
      fun combined => combined.elim 0 tariff.tree := by
  cases nodes with
  | nil => exact .pure (Nat.le_refl _)
  | cons first rest =>
    refine (paid_expectVar _).andThen fun _ => ?_
    refine (Paid.foldlM fun node _ combined => paid_appendDeclarators combined node).payOff ?_
    intro combined
    refine .pure (Nat.le_of_eq ?_)
    have hmarked : ∀ nodes : List Node,
        tariff.trees (nodes.map fun child => { child with ownsSemicolon := false }) =
          tariff.trees nodes := by
      intro nodes
      induction nodes with
      | nil => rfl
      | cons node rest ih =>
          rw [List.map_cons, Tariff.trees_cons, Tariff.trees_cons, ih, Tariff.tree_mark]
    rw [Option.elim_some, Tariff.tree_mk, hmarked, tariff.tree_eq combined, Tariff.below]

/-- The declarations are taken down from a node that is thrown away, and keep their price. -/
theorem paid_declaringLoop {loop : LoopFragment} {declarations : List StatementFragment}
    (hl : loop.Paid tariff) (h : ∀ statement ∈ declarations, statement.Paid tariff) :
    Pays tariff place 0 (declaringLoop loop declarations) := by
  refine (Paid.note _).andThen fun _ => (Paid.rangeSpan _ _).andThen fun span => ?_
  have hdeclarations : Pays tariff .inside 0 (declarations.forM (·.build)) :=
    Paid.forM fun statement hmem => (h statement hmem).builds
  refine (Paid.withinBare rfl rfl hdeclarations).payOff fun collected => ?_
  have hcombined : Paid tariff place (tariff.tree collected)
      (combineDeclarations collected.children) fun combined => combined.elim 0 tariff.tree :=
    (paid_combineDeclarations _).afford (tariff.below_le collected)
  exact hcombined.payOff fun combined => paid_forLoop combined hl

/-- The statements in front of a loop are built before it or go into its header. -/
theorem paid_syntheticBlock (h : ∀ statement ∈ statements, statement.Paid tariff) :
    Pays tariff place 0 (syntheticBlock statements) := by
  unfold syntheticBlock
  split
  · exact Paid.forM fun statement hmem => (h statement hmem).builds
  · next loop hloop =>
    obtain ⟨last, hlast, hlastLoop⟩ := Option.bind_eq_some_iff.1 hloop
    have hl : loop.Paid tariff := (h last (List.mem_of_getLast? hlast)).loop loop hlastLoop
    have hrest : ∀ statement ∈ statements.dropLast, statement.Paid tariff :=
      fun statement hmem => h statement (List.dropLast_subset _ hmem)
    refine (Paid.forM fun statement hmem => ?_).andThen fun _ => ?_
    · exact (hrest statement (List.mem_of_mem_take hmem)).builds
    · split
      · exact paid_forLoop none hl
      · exact paid_declaringLoop hl fun statement hmem =>
          hrest statement (List.mem_of_mem_drop hmem)

/-- Whatever the kind of the block, its statements can be paid for or are left out. -/
theorem paid_block (range : Range) (kind : BlockKind)
    (h : ∀ statement ∈ statements, statement.Paid tariff) :
    Pays tariff place 0 (block range kind statements) := by
  cases kind with
  | braced => exact paid_bracedBlock range h
  | parameter => exact paid_parameterBlock range h
  | synthetic => exact paid_syntheticBlock h

end Blocks

/-! ## Imports and exports from other modules -/

/-- The price of nodes to be put below the root, where export statements may be free. -/
def itemsPrice (tariff : Tariff scope.source) (nodes : List Node) : Nat :=
  (nodes.map fun node => tariff.symbols node.symbols + tariff.below node).sum

/-- A name that is not found is left out, and one that is found is free. -/
theorem paid_importedName (name : String) (start finish : Nat) :
    Paid tariff place 0 (importedName name start finish) fun found => found.elim 0 tariff.tree := by
  refine Paid.source (Paid.settleFree?.andThen fun found => ?_)
  cases found with
  | none => exact .pure (Nat.le_refl _)
  | some offset => exact (Paid.identifier _ _ _).bind fun node => .pure (Nat.le_refl _)

/-- An asterisk that is not found is left out, so it always spells the text. -/
theorem paid_namespaceSpecifier (entry : ImportEntry) (start finish : Nat) :
    Paid tariff place 0 (namespaceSpecifier entry start finish)
      fun found => found.elim 0 tariff.tree := by
  refine Paid.source ?_
  refine (Paid.settleAt? .star (Source.locates_locate (by decide))).bind fun found => ?_
  cases found with
  | none => exact .pure (Nat.le_refl _)
  | some offset =>
    refine (Paid.symbolAt _ _).payOff fun star => (paid_importedName _ _ _).bind fun name => ?_
    cases name with
    | none => exact .pure (Nat.zero_le _)
    | some name =>
      refine (Paid.mergeSpans _ _).andThen fun span => .pure ?_
      rw [Option.elim_some, Tariff.tree_branch, tariff.kind_single rfl rfl, Tariff.trees_cons,
        Tariff.trees_nil]
      exact (Nat.add_comm _ _).le

/-- A specifier without an asterisk is worth its names. -/
theorem paid_specifierAround (first : Node) (second : Option Node) :
    Paid tariff place (second.elim 0 tariff.tree + (tariff.tree first + 0))
      (specifierAround first second) fun found => found.elim 0 tariff.tree := by
  refine (Paid.mergeSpans _ _).andThen fun span => .pure ?_
  rw [Option.elim_some, Tariff.tree_branch, tariff.kind_symbols [] rfl rfl]
  cases second <;> simp only [Option.toList, Option.elim, Tariff.trees_cons, Tariff.trees_nil,
    Tariff.symbols_nil] <;> omega

/-- Neither the name nor its alias is made up. -/
theorem paid_nameSpecifier (entry : ImportEntry) (start finish : Nat) :
    Paid tariff place 0 (nameSpecifier entry start finish)
      fun found => found.elim 0 tariff.tree := by
  rw [nameSpecifier]
  generalize (if entry.isDefault then entry.boundName else entry.importName) = written
  refine (paid_importedName _ _ _).bind fun first => ?_
  cases first with
  | none => exact .pure (Nat.le_refl _)
  | some first =>
    dsimp only
    split
    · exact (paid_specifierAround first none).afford (Nat.zero_add _).le
    · exact (paid_importedName _ _ _).bind (paid_specifierAround first)

/-- Names that are missing in the text leave no specifier behind. -/
theorem paid_specifiers (finish : Nat) (entries : List ImportEntry) (start : Nat) :
    Paid tariff place 0 (specifiers finish entries start) tariff.trees := by
  induction entries generalizing start with
  | nil => exact .pure (Nat.le_refl _)
  | cons entry rest ih =>
    have hrest : ∀ found : Option Node, Paid tariff place (found.elim 0 tariff.tree + 0)
        (specifiersBehind (specifiers finish rest) start found) tariff.trees := by
      intro found
      cases found with
      | none => exact ih start
      | some specifier => exact (ih _).bind fun nodes => .pure (Nat.add_comm _ _).le
    rw [specifiers]
    split
    · exact (paid_namespaceSpecifier _ _ _).bind hrest
    · exact (paid_nameSpecifier _ _ _).bind hrest

/-- Keyword and path are both in the text, or there is no statement. -/
theorem paid_moduleStatement {keyword : String} (context request : String) (cursor : Nat)
    (hk : keyword ≠ "") :
    Paid tariff place 0 (moduleStatement keyword context request cursor)
      fun found => found.elim 0 fun place => tariff.symbol place.1 := by
  refine Paid.source (Paid.settleFree?.andThen fun path => ?_)
  cases path with
  | none => exact .pure (Nat.le_refl _)
  | some path =>
    refine (Paid.settleAt? (.keyword keyword) (Source.locates_locateLastWord hk)).bind
      fun found => ?_
    cases found with
    | none => exact .pure (Nat.le_refl _)
    | some offset => exact (Paid.symbolAt _ _).payOff fun symbol => .pure (Nat.le_refl _)

/-- Below the root the price of the statement is its keyword and its specifiers. -/
theorem paid_importStatement (request : String) (entries : List ImportEntry) (cursor : Nat) :
    Paid tariff place 0 (importStatement request entries cursor)
      fun found => itemsPrice tariff found.1.toList := by
  refine (paid_moduleStatement _ _ _ (by decide)).bind fun place => ?_
  cases place with
  | none => exact .pure (Nat.le_refl _)
  | some place =>
    obtain ⟨keyword, path⟩ := place
    refine (paid_specifiers _ _ _).bind fun names => ?_
    refine (Paid.symbolOver rfl).bind fun symbol => ?_
    refine (Paid.endsWithSemicolon _).andThen fun flag => .pure ?_
    simp only [itemsPrice, Option.toList, List.map_cons, List.map_nil, List.sum_cons, List.sum_nil,
      Node.symbols, NodeKind.symbols, Tariff.symbols_cons, Tariff.symbols_nil, Tariff.below,
      Option.elim]
    omega

/-- Imports and exports are recovered apart and put together at the end. -/
theorem itemsPrice_append (a b : List Node) :
    itemsPrice tariff (a ++ b) = itemsPrice tariff a + itemsPrice tariff b := by
  simp only [itemsPrice, List.map_append, List.sum_append]

/-- One statement for each group, or none where the text has none. -/
theorem paid_importGroups (groups : List (List ImportEntry)) (cursor : Nat) :
    Paid tariff place 0 (importGroups groups cursor) (itemsPrice tariff) := by
  induction groups generalizing cursor with
  | nil => exact .pure (Nat.le_refl _)
  | cons entries rest ih =>
    refine (paid_importStatement _ _ _).bind fun found => ?_
    refine (ih _).bind fun nodes => .pure ?_
    rw [itemsPrice_append]
    omega

/-- One statement for each module that is exported as a whole. -/
theorem paid_starExports (entries : List ExportEntry) (cursor : Nat) :
    Paid tariff place 0 (starExports entries cursor) (itemsPrice tariff) := by
  induction entries generalizing cursor with
  | nil => exact .pure (Nat.le_refl _)
  | cons entry rest ih =>
    unfold starExports
    split
    · exact ih cursor
    · refine (paid_moduleStatement _ _ _ (by decide)).bind fun place => ?_
      cases place with
      | none => exact ih cursor
      | some place =>
        obtain ⟨keyword, path⟩ := place
        refine (Paid.symbolOver rfl).bind fun symbol => ?_
        refine (Paid.endsWithSemicolon _).andThen fun flag => (ih _).bind fun nodes => .pure ?_
        simp only [itemsPrice, List.map_cons, List.sum_cons, Node.symbols, NodeKind.symbols,
          Option.toList, List.cons_append, List.nil_append, Tariff.symbols_cons, Tariff.symbols_nil,
          Tariff.below, Tariff.trees_nil, Option.elim]
        omega

/-- What is below the nodes is part of what they are worth. -/
theorem allBelow_le_itemsPrice (nodes : List Node) :
    tariff.allBelow nodes ≤ itemsPrice tariff nodes := by
  induction nodes with
  | nil => exact Nat.le_refl _
  | cons node rest ih => exact Nat.add_le_add (Nat.le_add_left _ _) ih

/-- The two prices differ by the export statements only. -/
theorem trees_eq_itemsPrice (nodes : List Node) (h : tariff.statement = 0) :
    tariff.trees nodes = itemsPrice tariff nodes := by
  induction nodes with
  | nil => rfl
  | cons node rest ih =>
    have hkind : tariff.kind node.kind = tariff.symbols node.symbols := by
      rw [Tariff.kind, h, ite_self]
      rfl
    rw [Tariff.trees_cons, ih, Tariff.tree_eq, hkind]
    rfl

/-- The statements known from the metadata go among the children of the root, where export
statements are free if they are not anyway. -/
theorem paid_moduleItems (info : ModuleInfo) : Pays tariff .top 0 (moduleItems info) := by
  refine (paid_importGroups _ _).bind fun imports => (paid_starExports _ _).bind fun exports => ?_
  dsimp only
  split
  · refine (Paid.note _).andThen fun _ => .modifyStack fun stack htop => ?_
    have hsorted := List.mergeSort_perm (stack.children ++ (imports ++ exports))
      fun a b => a.start ≤ b.start
    refine ⟨Paid.depth_modifyCurrent _ _,
      tariff.stack_setChildren (fun hpriced => ?_) fun _ _ => ?_⟩
    · have hfree := tariff.statement_free (hpriced htop)
      have hsum : tariff.trees _ = tariff.trees _ := (hsorted.map tariff.tree).sum_nat
      rw [hsum, Tariff.trees_append, trees_eq_itemsPrice (imports ++ exports) hfree,
        itemsPrice_append]
      omega
    · have hsum : tariff.allBelow _ = tariff.allBelow _ := (hsorted.map tariff.below).sum_nat
      have hle : tariff.allBelow (imports ++ exports) ≤ itemsPrice tariff (imports ++ exports) :=
        allBelow_le_itemsPrice _
      rw [itemsPrice_append] at hle
      rw [hsum, Tariff.allBelow_append]
      omega
  · exact .pure (Nat.zero_le _)

end Rule

end Concretion
