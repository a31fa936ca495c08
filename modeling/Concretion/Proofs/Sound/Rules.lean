import Concretion.Proofs.Sound.Steps
import Concretion.Recovery.Rule.Block
import Concretion.Recovery.Rule.Branch
import Concretion.Recovery.Rule.Collection
import Concretion.Recovery.Rule.Member
import Concretion.Recovery.Rule.ModuleItems
import Concretion.Recovery.Rule.Operation
import Concretion.Recovery.Rule.Plain
import Concretion.Recovery.Rule.Reference
import Concretion.Recovery.Rule.Try

/-!
# Soundness of the rules

A rule is sound if the fragments that it puts together are. The order of the lemmas is that of the
rules.
-/

namespace Concretion

open Recover

/-! ## Sound fragments -/

/-- The recovery of an expression is sound. -/
def Fragment.Sound (orderly : Prop) (fragment : Fragment) : Prop :=
  Builds orderly false fragment.build

/-- The recovery of a block is sound. -/
def BlockFragment.Sound (orderly : Prop) (fragment : BlockFragment) : Prop :=
  Builds orderly false fragment.build

/-- The parts of a function are sound. -/
structure FunctionFragment.Sound (orderly : Prop) (function : FunctionFragment) : Prop where
  body : function.body.Sound orderly
  defaults : ∀ value ∈ function.defaults, value.2.Sound orderly

/-- The value of a member is sound. -/
def MemberValue.Sound (orderly : Prop) : MemberValue → Prop
  | method function => function.Sound orderly
  | expression value => value.Sound orderly

/-- The parts of a member are sound. -/
structure MemberFragment.Sound (orderly : Prop) (member : MemberFragment) : Prop where
  key : member.key.Sound orderly
  value : ∀ value ∈ member.value, value.Sound orderly
  getter : ∀ function ∈ member.getter, function.Sound orderly
  setter : ∀ function ∈ member.setter, function.Sound orderly

/-- The parts of a class are sound. -/
structure ClassFragment.Sound (orderly : Prop) (definition : ClassFragment) : Prop where
  heritage : ∀ fragment ∈ definition.heritage, fragment.Sound orderly
  elements : ∀ element ∈ definition.elements, Builds orderly false element.build

/-- The value of a binding is sound. -/
def BindingFragment.Sound (orderly : Prop) (binding : BindingFragment) : Prop :=
  ∀ fragment ∈ binding.init, fragment.Sound orderly

/-- The parts of a loop are sound. -/
structure LoopFragment.Sound (orderly : Prop) (loop : LoopFragment) : Prop where
  init : ∀ fragment ∈ loop.init, fragment.Sound orderly
  test : ∀ fragment ∈ loop.test, fragment.Sound orderly
  update : ∀ fragment ∈ loop.update, fragment.Sound orderly
  body : loop.body.Sound orderly

/-- The recovery of a statement is sound, and so are the parts of a loop. -/
structure StatementFragment.Sound (orderly : Prop) (statement : StatementFragment) : Prop where
  build : Builds orderly false statement.build
  loop : ∀ loop ∈ statement.loop?, loop.Sound orderly

variable {orderly : Prop} {inner : Bool}

/-- What never touches the children of the open node may be built where this is allowed. -/
theorem Fragment.Sound.builds {fragment : Fragment} (h : fragment.Sound orderly) :
    Builds orderly inner fragment.build := h.relax

/-- As for expressions, a block may be built wherever children may be rearranged. -/
theorem BlockFragment.Sound.builds {fragment : BlockFragment} (h : fragment.Sound orderly) :
    Builds orderly inner fragment.build := h.relax

/-- As for expressions, and for every statement of a block in turn. -/
theorem StatementFragment.Sound.builds {statement : StatementFragment}
    (h : statement.Sound orderly) : Builds orderly inner statement.build := h.build.relax

/-- A part that is missing leaves the session as it is. -/
theorem Fragment.sound_buildOptional {fragment : Option Fragment}
    (h : ∀ part ∈ fragment, part.Sound orderly) :
    Builds orderly inner (buildOptional fragment) := by
  cases fragment with
  | none => exact .pure fun _ => trivial
  | some part => exact (h part rfl).builds

/-- A group is put around what has just been recovered, so this only happens inside a node. -/
theorem Fragment.sound_buildBeside {operand : Fragment} (h : operand.Sound orderly)
    (outer : Operator) (side : Operator.Side) :
    Builds orderly true (operand.buildBeside outer side) := by
  refine h.builds.andThen ?_
  split
  · exact .groupLastChild
  · exact .pure fun _ => trivial

/-- As beside an operator, the group is put around the object that was just recovered. -/
theorem Fragment.sound_buildObject {operand : Fragment} (h : operand.Sound orderly) :
    Builds orderly true operand.buildObject := by
  refine h.builds.andThen ?_
  split
  · exact .groupLastChild
  · exact .pure fun _ => trivial

namespace Rule

/-! ## Identifiers and literals -/

/-- A name that is passed over leaves only a note in the journal. -/
theorem sound_ident (name : Ident) : Builds orderly inner (ident name) := by
  refine Sound.takeSkip.bind fun skips _ => ?_
  split
  · exact .note rfl
  · exact (Sound.identifier _ _ _).bind fun _ hnode => .attach hnode

/-- Node and symbol have the span of the range. -/
theorem sound_verbatim (range : Range) {token : TokenKind} {kind : Symbol → NodeKind}
    (hkind : ∀ symbol, (kind symbol).symbols = [symbol]) :
    Sound orderly inner (verbatim range token kind) Node.Ordered := by
  refine (Sound.rangeSpan _ _).bind fun span hspan => ?_
  refine (Sound.symbolOver hspan).bind fun symbol hsymbol => .pure fun o => ?_
  exact Node.ordered_leaf (hspan o) (by simpa [hkind] using hsymbol o)

/-- The literal has the span that it is made from. -/
theorem sound_numeral {span : Span} (h : orderly → span.Ordered) :
    Sound orderly inner (numeral span) Node.Ordered := by
  refine (Sound.symbolOver h).bind fun symbol hsymbol => .pure fun o => ?_
  exact Node.ordered_single (h o) rfl (hsymbol o)

/-- A sign is followed by at least one digit, so the span behind it is in order. -/
theorem sound_number (range : Range) : Sound orderly inner (number range) Node.Ordered := by
  rw [number]
  refine (Sound.rangeSpan _ _).bind fun full hfull => Sound.source.bind fun text _ => ?_
  dsimp only
  split
  · exact sound_numeral hfull
  · next hdigits =>
    have hwidth := Text.width_pos fun hnil => hdigits (List.isEmpty_iff.2 hnil)
    refine (Sound.spanBetween fun _ => ?_).bind fun span hspan => sound_numeral fun o => (hspan o).1
    omega

/-- A quotation mark that is not there is noted and not reported, so both modes go on. -/
theorem sound_quoteShown (span : Span) (found : Option UInt8) :
    Sound orderly inner (quoteShown span found) fun _ => True := by
  unfold quoteShown
  split
  · exact .pure fun _ => trivial
  · split
    · exact (Sound.note rfl).andThen (.pure fun _ => trivial)
    · exact .pure fun _ => trivial

/-- A value at the start of the text has no place for its quotation mark in front and fails. -/
theorem sound_string (range : Range) (value : String) :
    Sound orderly inner (string range value) Node.Ordered := by
  rw [string]
  refine Sound.source.bind fun text _ => ?_
  split
  · exact .throw rfl rfl fun _ => trivial
  · refine (Sound.rangeSpan _ _).bind fun span hspan => ?_
    refine (sound_quoteShown _ _).bind fun quote _ => ?_
    refine (Sound.intern _).andThen (.pure fun o => ?_)
    exact Node.ordered_single (hspan o) rfl (hspan o)

/-- Each kind of literal attaches the leaf that was made for it. -/
theorem sound_literal (range : Range) (value : Literal) :
    Builds orderly inner (literal range value) := by
  have hattach : ∀ {build : Recover Node}, Sound orderly inner build Node.Ordered →
      Builds orderly inner (do attach (← build)) :=
    fun h => h.bind fun _ hnode => .attach hnode
  rcases value with _ | value | flag | _ | _
  · exact hattach (sound_number range)
  · exact hattach (sound_string range value)
  · cases flag
    · exact hattach (sound_verbatim range fun _ => rfl)
    · exact hattach (sound_verbatim range fun _ => rfl)
  · exact hattach (sound_verbatim range fun _ => rfl)
  · exact hattach (sound_verbatim range fun _ => rfl)

/-! ## Collections -/

/-- A hole becomes a point where the last child ends. -/
theorem sound_element (hole : Nat) {fragment : Option Fragment}
    (h : ∀ part ∈ fragment, part.Sound orderly) :
    Builds orderly inner (element hole fragment) := by
  cases fragment with
  | some part => exact (h part rfl).builds
  | none => exact Sound.getStack.bind fun _ _ => .attach fun _ => Node.ordered_elision _

/-- An array with too many holes fails under its own span, which is in order. -/
theorem sound_array (range : Range) {elements : List (Option Fragment)}
    (h : ∀ element ∈ elements, ∀ part ∈ element, part.Sound orderly) :
    Builds orderly inner (array range elements) := by
  refine (Sound.rangeSpan _ _).bind fun span hspan => ?_
  refine (Sound.findAtOrAfter _ _ _ _).bind fun lbracket hleft => ?_
  refine (Sound.findEndingAt _ _ _ _).bind fun rbracket hright => ?_
  refine .enter (fun o => Node.ordered_leaf (hspan o) ?_) ?_
  · simpa [NodeKind.symbols] using ⟨hleft o, hright o⟩
  · refine (Sound.forM fun element he => sound_element _ (h element he)).andThen ?_
    refine Sound.getStack.bind fun stack _ => ?_
    dsimp only
    split
    · exact .throw rfl rfl fun o => Failure.ordered_shape (hspan o)
    · exact .pure fun _ => trivial

/-- The members are recovered below the node with the braces. -/
theorem sound_object (range : Range) {members : List (Recover Unit)}
    (h : ∀ member ∈ members, Builds orderly false member) :
    Builds orderly inner (object range members) := by
  refine (Sound.rangeSpan _ _).bind fun span hspan => ?_
  refine (Sound.findAtOrAfter _ _ _ _).bind fun lbrace hleft => ?_
  refine (Sound.findEndingAt _ _ _ _).bind fun rbrace hright => ?_
  refine .enter (fun o => Node.ordered_leaf (hspan o) ?_) ?_
  · simpa [NodeKind.symbols] using ⟨hleft o, hright o⟩
  · exact Sound.forM fun member hmember => (h member hmember).relax

/-! ## Operators -/

/-- Only the children are taken over. -/
theorem flattenInvoke_eq (node : Node) :
    ∃ children, node.flattenInvoke = { node with children := children } ∧
      (node.Ordered → ∀ child ∈ children, child.Ordered) := by
  unfold Node.flattenInvoke
  split
  · next child hchildren =>
    split
    · refine ⟨child.children, rfl, fun hnode other hother => ?_⟩
      exact (hnode.children child (by simp [hchildren])).children other hother
    · exact ⟨node.children, by cases node; rfl, Node.Ordered.children⟩
  · exact ⟨node.children, by cases node; rfl, Node.Ordered.children⟩

/-- This rearranges the children of the open node, so it only happens inside of one. -/
theorem sound_flattenInvoke :
    Builds orderly true (modifyStack (·.modifyCurrent Node.flattenInvoke)) := by
  refine .modifyStack (fun stack => ?_) fun stack _ hs => hs.modifyCurrent ?_
  · obtain ⟨children, hflat, -⟩ := flattenInvoke_eq stack.current
    exact .modifyCurrent stack (by rw [hflat]) (by rw [hflat]) (by rw [hflat])
      fun h => by cases h
  · obtain ⟨children, hflat, hordered⟩ := flattenInvoke_eq stack.current
    rw [hflat]
    exact hs.current.withChildren (hordered hs.current)

/-- The operand is grouped if it has to be, and a call below `new` is taken apart. -/
theorem sound_operandBelow (operator : Operator) (form : UnaryForm) {operand : Fragment}
    (h : operand.Sound orderly) : Builds orderly true (operandBelow operator form operand) := by
  refine (Fragment.sound_buildBeside h _ _).andThen ?_
  split
  · exact sound_flattenInvoke
  · exact .pure fun _ => trivial

/-- An operator that is not unary fails under the span of the whole expression. -/
theorem sound_unary (range : Range) (operator : Operator) {operand : Fragment}
    (h : operand.Sound orderly) : Builds orderly inner (unary range operator operand) := by
  rw [unary]
  refine (Sound.rangeSpan _ _).bind fun span hspan => ?_
  split
  · exact .throw rfl rfl hspan
  · next spelling form _ =>
    have hnode : ∀ symbol : Symbol, (orderly → symbol.Ordered) → Builds orderly inner
        (enter (.leaf (form.nodeKind symbol) span) (operandBelow operator form operand)) := by
      intro symbol hsymbol
      refine .enter (fun o => ?_) (sound_operandBelow operator form h)
      exact Node.ordered_single (hspan o) (form.symbols_nodeKind symbol) (hsymbol o)
    dsimp only
    split
    · exact (Sound.findEndingAt _ _ _ _).bind hnode
    · exact (Sound.findAtOrAfter _ _ _ _).bind hnode

/-- A word and a sign are looked for differently, both miss at most one token. -/
theorem sound_operatorBetween (spelling : String) (start finish : Nat) :
    Sound orderly inner (operatorBetween spelling start finish) Symbol.Ordered := by
  unfold operatorBetween
  dsimp only
  split
  · exact .findWord _ _ _ _
  · exact .find _ _ _ _

/-- An operator that is not binary fails before anything is looked for. -/
theorem sound_binary (range : Range) (operator : Operator) {left right : Fragment}
    (hl : left.Sound orderly) (hr : right.Sound orderly) :
    Builds orderly inner (binary range operator left right) := by
  refine (Sound.rangeSpan _ _).bind fun span hspan => ?_
  split
  · exact .throw rfl rfl hspan
  · next spelling form _ =>
    refine (sound_operatorBetween _ _ _).bind fun symbol hsymbol => ?_
    refine .enter (fun o => Node.ordered_single (hspan o) (form.symbols_nodeKind _) (hsymbol o)) ?_
    exact (Fragment.sound_buildBeside hl _ _).andThen (Fragment.sound_buildBeside hr _ _)

/-- Two tokens may be missed before the node is opened, and none after. -/
theorem sound_conditional (range : Range) {test consequent alternate : Fragment}
    (ht : test.Sound orderly) (hc : consequent.Sound orderly) (ha : alternate.Sound orderly) :
    Builds orderly inner (conditional range test consequent alternate) := by
  refine (Sound.rangeSpan _ _).bind fun span hspan => ?_
  refine (Sound.find _ _ _ _).bind fun question hquestion => ?_
  refine (Sound.find _ _ _ _).bind fun colon hcolon => ?_
  refine .enter (fun o => Node.ordered_leaf (hspan o) ?_) ?_
  · simpa [NodeKind.symbols] using ⟨hquestion o, hcolon o⟩
  · refine (Fragment.sound_buildBeside ht _ _).andThen ?_
    exact (Fragment.sound_buildBeside hc _ _).andThen (Fragment.sound_buildBeside ha _ _)

/-! ## Calls and member access -/

/-- The list spans its parentheses, which may be at fallback positions. -/
theorem sound_argumentParens (range : Range) (opening : Nat) :
    Sound orderly inner (argumentParens range opening) fun list => ∀ node ∈ list, node.Ordered := by
  refine (Sound.symbolAt _ _).bind fun lparen hleft => ?_
  refine (Sound.findEndingAt _ _ _ _).bind fun rparen hright => ?_
  refine (Sound.mergeSpans hleft).bind fun span hspan => .pure fun o node hnode => ?_
  cases hnode
  exact Node.ordered_leaf (hspan o) (by simpa [NodeKind.symbols] using ⟨hleft o, hright o⟩)

/-- Where the callee has no list, nothing is made and nothing is missed. -/
theorem sound_argumentList (range : Range) (calleeEnd : Nat) (arguments : List Fragment) :
    Sound orderly inner (argumentList range calleeEnd arguments)
      fun list => ∀ node ∈ list, node.Ordered := by
  cases arguments with
  | nil =>
    rw [argumentList]
    refine Sound.source.bind fun text _ => ?_
    cases text.find "(" calleeEnd range.finish with
    | none => exact .pure fun _ _ hnone => by cases hnone
    | some opening => exact sound_argumentParens range opening
  | cons first rest =>
    rw [argumentList]
    exact Sound.source.bind fun text _ => Sound.settle.bind fun opening _ =>
      sound_argumentParens range opening

/-- The argument list is on the shelf while the callee is recovered. -/
theorem sound_call (range : Range) {callee : Fragment} {arguments : List Fragment}
    (hc : callee.Sound orderly) (ha : ∀ argument ∈ arguments, argument.Sound orderly) :
    Builds orderly inner (call range callee arguments) := by
  refine (Sound.rangeSpan _ _).bind fun span hspan => ?_
  refine (sound_argumentList _ _ _).bind fun list hlist => ?_
  refine .enter (fun o => Node.ordered_bare (hspan o) rfl) ?_
  cases list with
  | none => exact Fragment.sound_buildObject hc
  | some list =>
    dsimp only
    rw [← deferring_bind]
    refine (Sound.deferring (Fragment.sound_buildObject hc)).bind fun taken htaken => ?_
    refine .enter (fun o => htaken o ▸ hlist o list rfl) ?_
    exact Sound.forM fun argument hargument => (ha argument hargument).builds

/-- The name is recovered before the object and attached behind it. -/
theorem sound_access (range : Range) {base : Fragment} (property : String)
    (h : base.Sound orderly) : Builds orderly inner (access range base property) := by
  refine (Sound.rangeSpan _ _).bind fun span hspan => ?_
  refine (Sound.find _ _ _ _).bind fun dot hdot => ?_
  refine (Sound.identifier _ _ _).bind fun name hname => ?_
  refine .enter (fun o => Node.ordered_single (hspan o) rfl (hdot o)) ?_
  exact (Fragment.sound_buildObject h).andThen (.attach hname)

/-- Both brackets are found before the object is built, so a missed one leaves no node open. -/
theorem sound_index (range : Range) {base index : Fragment} (hb : base.Sound orderly)
    (hi : index.Sound orderly) : Builds orderly inner (Rule.index range base index) := by
  refine (Sound.rangeSpan _ _).bind fun span hspan => ?_
  refine (Sound.find _ _ _ _).bind fun lbracket hleft => ?_
  refine (Sound.findEndingAt _ _ _ _).bind fun rbracket hright => ?_
  refine .enter (fun o => Node.ordered_leaf (hspan o) ?_) ?_
  · simpa [NodeKind.symbols] using ⟨hleft o, hright o⟩
  · exact (Fragment.sound_buildObject hb).andThen hi.builds

/-! ## Plain statements -/

/-- To mark a node changes none of its spans. -/
theorem sound_withSemicolon {node : Node} (finish : Nat) (hn : orderly → node.Ordered) :
    Sound orderly inner (withSemicolon node finish) Node.Ordered :=
  (Sound.terminates _ _).bind fun flag _ => .pure fun o => (hn o).withSemicolon flag

/-- The last child is replaced by itself with another mark. -/
theorem sound_expressionStatement {expression : Fragment} (h : expression.Sound orderly) :
    Builds orderly inner (expressionStatement expression) := by
  refine h.builds.andThen (Sound.getStack.bind fun stack hstack => ?_)
  split
  · exact .pure fun _ => trivial
  · next statement hlast =>
    refine (sound_withSemicolon _ fun o => (hstack o).lastChild statement hlast).bind ?_
    exact fun marked hmarked => .replaceLast hmarked

/-- The statement has the span of its range and no symbols. -/
theorem sound_emptyStatement (range : Range) :
    Builds orderly inner (emptyStatement range) := by
  refine (Sound.rangeSpan _ _).bind fun span hspan => .attach fun o => ?_
  have hleaf : (Node.leaf .emptyStatement span).Ordered := Node.ordered_bare (hspan o) rfl
  exact hleaf.withSemicolon true

/-- The node is closed before the semicolon is looked for. -/
theorem sound_throwStatement (range : Range) {value : Fragment} (h : value.Sound orderly) :
    Builds orderly inner (throwStatement range value) := by
  refine (Sound.rangeSpan _ _).bind fun span hspan => ?_
  have hleaf : orderly → (Node.leaf .throwStatement span).Ordered :=
    fun o => Node.ordered_bare (hspan o) rfl
  refine (Sound.within hleaf h.builds).bind fun node hnode => ?_
  exact (sound_withSemicolon _ hnode).bind fun _ hmarked => .attach hmarked

/-- A `return` without a value gets a point as its child. -/
theorem sound_returnStatement (range : Range) {value : Option Fragment} (isGenerated : Bool)
    (h : ∀ part ∈ value, part.Sound orderly) :
    Builds orderly inner (returnStatement range value isGenerated) := by
  unfold returnStatement
  split
  · exact Fragment.sound_buildOptional h
  · refine (Sound.rangeSpan _ _).bind fun span hspan => ?_
    have hleaf : orderly → (Node.leaf .returnStatement span).Ordered :=
      fun o => Node.ordered_bare (hspan o) rfl
    refine (Sound.within hleaf ?_).bind fun node hnode => ?_
    · cases value with
      | some part => exact (h part rfl).builds
      | none => exact .attach fun _ => Node.ordered_empty _
    · exact (sound_withSemicolon _ hnode).bind fun _ hmarked => .attach hmarked

/-- A label that is missed gets a symbol at the end of the range. -/
theorem sound_jumpLabel (range : Range) (keyword label : String) :
    Sound orderly inner (jumpLabel range keyword label) Symbol.Ordered :=
  Sound.source.bind fun _ _ => Sound.settle.bind fun offset _ => .symbolAt _ offset

/-- A label is looked for only if there is one. -/
theorem sound_jump (range : Range) (kind : JumpKind) (label : Option String) :
    Builds orderly inner (jump range kind label) := by
  refine (Sound.rangeSpan _ _).bind fun span hspan => ?_
  have hlabel : Sound orderly inner (label.mapM (jumpLabel range kind.keyword))
      fun located => ∀ symbol ∈ located, symbol.Ordered := by
    cases label with
    | none => exact .pure fun _ _ h => by cases h
    | some label =>
      refine (sound_jumpLabel _ _ _).bind fun symbol hsymbol => .pure fun o other hother => ?_
      cases hother
      exact hsymbol o
  refine hlabel.bind fun located hlocated => ?_
  refine (Sound.endsWithSemicolon _).bind fun flag _ => .attach fun o => ?_
  refine (Node.ordered_leaf (hspan o) fun symbol hsymbol => ?_).withSemicolon flag
  cases kind <;> exact hlocated o symbol (Option.mem_toList.1 hsymbol)

/-- The name of the label is the first child, the body the second. -/
theorem sound_labelled (range : Range) (label : String) {body : BlockFragment}
    (h : body.Sound orderly) : Builds orderly inner (labelled range label body) := by
  refine (Sound.rangeSpan _ _).bind fun span hspan => ?_
  refine (Sound.find _ _ _ _).bind fun colon hcolon => ?_
  refine (Sound.identifier _ _ _).bind fun name hname => ?_
  refine .enter (fun o => Node.ordered_single (hspan o) rfl (hcolon o)) ?_
  exact (Sound.attach hname).andThen h.builds

/-! ## Branching statements -/

/-- The number of children is checked, and a wrong one fails under the span of the open node. -/
theorem sound_ifElse (range : Range) {test : Fragment} {pass : BlockFragment}
    {fail : Option BlockFragment} (ht : test.Sound orderly) (hp : pass.Sound orderly)
    (hf : ∀ block ∈ fail, block.Sound orderly) :
    Builds orderly inner (ifElse range test pass fail) := by
  refine (Sound.rangeSpan _ _).bind fun span hspan => ?_
  refine (Sound.find _ _ _ _).bind fun lparen hleft => ?_
  refine (Sound.find _ _ _ _).bind fun rparen hright => ?_
  refine .enter (fun o => Node.ordered_leaf (hspan o) ?_) ?_
  · simpa [NodeKind.symbols] using ⟨hleft o, hright o⟩
  · refine ht.builds.andThen (hp.builds.andThen ?_)
    cases fail with
    | some fail => exact (hf fail rfl).builds.andThen (.expectChildren 3)
    | none =>
      refine Sound.getStack.bind fun stack _ => ?_
      exact (Sound.attach fun _ => Node.ordered_empty _).andThen (.expectChildren 3)

/-- Four tokens are looked for before the node is opened, then come subject and clauses. -/
theorem sound_switch (range : Range) {subject : Fragment} {cases : List (Range × Recover Unit)}
    (hs : subject.Sound orderly) (hc : ∀ clause ∈ cases, Builds orderly false clause.2) :
    Builds orderly inner (switch range subject cases) := by
  refine (Sound.rangeSpan _ _).bind fun span hspan => ?_
  refine (Sound.find _ _ _ _).bind fun lparen hlparen => ?_
  refine (Sound.find _ _ _ _).bind fun rparen hrparen => ?_
  refine (Sound.find _ _ _ _).bind fun lbrace hlbrace => ?_
  refine (Sound.findEndingAt _ _ _ _).bind fun rbrace hrbrace => ?_
  refine .enter (fun o => Node.ordered_leaf (hspan o) ?_) ?_
  · simpa [NodeKind.symbols] using ⟨hlparen o, hrparen o, hlbrace o, hrbrace o⟩
  · exact hs.builds.andThen (Sound.forM fun clause hclause => (hc clause hclause).relax)

/-- The span reaches up to the colon, even if that is behind the range of the clause. -/
theorem sound_caseNode {clause : CaseFragment} (ht : ∀ test ∈ clause.test, test.Sound orderly)
    (hs : ∀ statement ∈ clause.statements, statement.Sound orderly) {kind : NodeKind}
    {colon : Symbol} (hcolon : orderly → colon.Ordered) (hkind : kind.symbols = [colon]) :
    Builds orderly inner (caseNode clause kind colon) := by
  refine (Sound.rangeSpan _ _).bind fun full hfull => ?_
  refine (Sound.mergeSpans hfull).bind fun span hspan => ?_
  refine .enter (fun o => Node.ordered_single (hspan o) hkind (hcolon o)) ?_
  refine (Fragment.sound_buildOptional ht).andThen ?_
  exact Sound.forM fun statement hstatement => (hs statement hstatement).builds

/-- Both kinds of clauses look for their colon, and differ in where they start to. -/
theorem sound_switchCase {clause : CaseFragment} (ht : ∀ test ∈ clause.test, test.Sound orderly)
    (hs : ∀ statement ∈ clause.statements, statement.Sound orderly) :
    Builds orderly inner (switchCase clause) := by
  rw [switchCase]
  split
  · exact (Sound.find _ _ _ _).bind fun colon hcolon => sound_caseNode ht hs hcolon rfl
  · exact (Sound.find _ _ _ _).bind fun colon hcolon => sound_caseNode ht hs hcolon rfl

/-- The test comes before the body, as in the text. -/
theorem sound_whileLoop (range : Range) {test : Fragment} {body : BlockFragment}
    (ht : test.Sound orderly) (hb : body.Sound orderly) :
    Builds orderly inner (whileLoop range test body) := by
  refine (Sound.rangeSpan _ _).bind fun span hspan => ?_
  refine (Sound.find _ _ _ _).bind fun lparen hleft => ?_
  refine (Sound.find _ _ _ _).bind fun rparen hright => ?_
  refine .enter (fun o => Node.ordered_leaf (hspan o) ?_) ?_
  · simpa [NodeKind.symbols] using ⟨hleft o, hright o⟩
  · exact ht.builds.andThen hb.builds

/-- The loop is closed before its semicolon is looked for. -/
theorem sound_doLoop (range : Range) {test : Fragment} {body : BlockFragment}
    (ht : test.Sound orderly) (hb : body.Sound orderly) :
    Builds orderly inner (doLoop range test body) := by
  refine (Sound.rangeSpan _ _).bind fun span hspan => ?_
  refine (Sound.find _ _ _ _).bind fun lparen hleft => ?_
  refine (Sound.find _ _ _ _).bind fun rparen hright => ?_
  have hleaf : orderly → (Node.leaf (.doLoop lparen rparen) span).Ordered := fun o =>
    Node.ordered_leaf (hspan o) (by simpa [NodeKind.symbols] using ⟨hleft o, hright o⟩)
  refine (Sound.within hleaf (hb.builds.andThen ht.builds)).bind fun node hnode => ?_
  exact (Sound.endsWithSemicolon _).bind fun flag _ => .attach fun o => (hnode o).withSemicolon flag

/-- The object takes the place of the test. -/
theorem sound_withScope (range : Range) {subject : Fragment} {body : BlockFragment}
    (hs : subject.Sound orderly) (hb : body.Sound orderly) :
    Builds orderly inner (withScope range subject body) := by
  refine (Sound.rangeSpan _ _).bind fun span hspan => ?_
  refine (Sound.find _ _ _ _).bind fun lparen hleft => ?_
  refine (Sound.find _ _ _ _).bind fun rparen hright => ?_
  refine .enter (fun o => Node.ordered_leaf (hspan o) ?_) ?_
  · simpa [NodeKind.symbols] using ⟨hleft o, hright o⟩
  · exact hs.builds.andThen hb.builds

/-! ## `try` statements -/

/-- The exception is a name of its own and may be passed over like any other. -/
theorem sound_catchClause (range : Range) (exception : Ident) {body : BlockFragment}
    (h : body.Sound orderly) : Builds orderly inner (catchClause range exception body) := by
  refine (Sound.rangeSpan _ _).bind fun span hspan => ?_
  refine .enter (fun o => Node.ordered_bare (hspan o) rfl) ?_
  exact (sound_ident exception).andThen h.builds

/-- Without a third child this fails, under the span of the node that is open. -/
theorem sound_finallyClause (finallyStart : Nat) :
    Builds orderly true (finallyClause finallyStart) := by
  refine Sound.getStack.bind fun stack hstack => ?_
  split
  · refine (Sound.findWord _ _ _ _).bind fun keyword hkeyword => ?_
    refine (Sound.mergeSpans hkeyword).bind fun span hspan => .wrapChild 2 fun o => ?_
    exact Node.ordered_single (hspan o) rfl (hkeyword o)
  · exact Sound.getStack.bind fun stack hstack => .throw rfl rfl fun o => (hstack o).fault _

/-- Without a finalizer the children stay as they are. -/
theorem sound_finallyLast (finalizer : Option BlockFragment) :
    Builds orderly true (finallyLast finalizer) := by
  cases finalizer with
  | none => exact .pure fun _ => trivial
  | some finalizer => exact sound_finallyClause _

/-- The place of a missing finalizer is taken by a point. -/
theorem sound_finallyBlock {finalizer : Option BlockFragment}
    (h : ∀ block ∈ finalizer, block.Sound orderly) (last : Nat) :
    Builds orderly true (finallyBlock finalizer last) := by
  cases finalizer with
  | none => exact .attach fun _ => Node.ordered_empty _
  | some finalizer => exact (h finalizer rfl).builds

/-- Children are counted and reordered here, so this only happens inside a node. -/
theorem sound_tryEnd (finalizer : Option BlockFragment) :
    Builds orderly true (tryEnd finalizer) :=
  (Sound.expectChildren 3).andThen ((Sound.reorder _).andThen (sound_finallyLast finalizer))

/-- The parts are attached in the order of the recovery and put in order afterwards. -/
theorem sound_tryParts {body : BlockFragment} {catches : List (Recover Unit)}
    {finalizer : Option BlockFragment} (last : Nat) (hb : body.Sound orderly)
    (hc : ∀ clause ∈ catches, Builds orderly false clause)
    (hf : ∀ block ∈ finalizer, block.Sound orderly) :
    Builds orderly true (tryParts body catches finalizer last) := by
  refine (sound_finallyBlock hf last).andThen (hb.builds.andThen ?_)
  refine (Sound.forM fun clause hclause => (hc clause hclause).relax).andThen ?_
  dsimp only
  split
  · refine Sound.getStack.bind fun stack _ => ?_
    exact (Sound.attach fun _ => Node.ordered_empty _).andThen (sound_tryEnd finalizer)
  · exact sound_tryEnd finalizer

/-- A statement with several handlers fails under its own span. -/
theorem sound_tryCatch (range : Range) {body : BlockFragment} {catches : List (Recover Unit)}
    {finalizer : Option BlockFragment} (hb : body.Sound orderly)
    (hc : ∀ clause ∈ catches, Builds orderly false clause)
    (hf : ∀ block ∈ finalizer, block.Sound orderly) :
    Builds orderly inner (tryCatch range body catches finalizer) := by
  rw [tryCatch]
  refine (Sound.note rfl).andThen ((Sound.rangeSpan _ _).bind fun span hspan => ?_)
  split
  · exact .throw rfl rfl fun o => Failure.ordered_shape (hspan o)
  · exact .enter (fun o => Node.ordered_bare (hspan o) rfl) (sound_tryParts span.last hb hc hf)

/-! ## Loops -/

/-- The place of a missing clause is taken by a point. -/
theorem sound_clause {fragment : Option Fragment} (placeholder : Nat)
    (h : ∀ part ∈ fragment, part.Sound orderly) :
    Builds orderly inner (clause fragment placeholder) := by
  cases fragment with
  | some part => exact (h part rfl).builds
  | none => exact .attach fun _ => Node.ordered_empty _

/-- Declarations that are moved into the header are in order before they are attached. -/
theorem sound_firstClause {declaration : Option Node} {init : Option Fragment} (placeholder : Nat)
    (hd : orderly → ∀ node ∈ declaration, node.Ordered)
    (h : ∀ part ∈ init, part.Sound orderly) :
    Builds orderly inner (firstClause declaration init placeholder) := by
  cases declaration with
  | some node => exact .attach fun o => hd o node rfl
  | none => exact sound_clause _ h

/-- A body that leaves no node behind is replaced by an empty block with its range. -/
theorem sound_loopBody {body : BlockFragment} (h : body.Sound orderly) :
    Builds orderly inner (loopBody body) := by
  refine Sound.getStack.bind fun before _ =>
    h.builds.andThen (Sound.getStack.bind fun after _ => ?_)
  split
  · refine (Sound.rangeSpan _ _).bind fun span hspan => ?_
    exact .attach fun o => Node.ordered_bare (hspan o) rfl
  · exact .pure fun _ => trivial

section Loops

variable {loop : LoopFragment} {declaration : Option Node}

/-- Two semicolons and the closing parenthesis may be missed before the node is opened. -/
theorem sound_classicLoop {span : Span} {lparen : Symbol} (initEnd : Nat)
    (h : loop.Sound orderly) (hd : orderly → ∀ node ∈ declaration, node.Ordered)
    (hspan : orderly → span.Ordered) (hlparen : orderly → lparen.Ordered) :
    Builds orderly inner (classicLoop loop declaration span lparen initEnd) := by
  refine (Sound.find _ _ _ _).bind fun semi1 hsemi1 => ?_
  refine (Sound.find _ _ _ _).bind fun semi2 hsemi2 => ?_
  refine (Sound.findLast _ _ _ _).bind fun rparen hrparen => ?_
  refine .enter (fun o => Node.ordered_leaf (hspan o) ?_) ?_
  · simpa [NodeKind.symbols] using ⟨hlparen o, hsemi1 o, hsemi2 o, hrparen o⟩
  · refine (sound_firstClause _ hd h.init).andThen ((sound_clause _ h.test).andThen ?_)
    refine (sound_clause _ h.update).andThen ((sound_loopBody h.body).andThen ?_)
    exact .expectChildren 4

/-- Only the keyword between the clauses depends on the kind of the loop. -/
theorem sound_rangingLoop {span : Span} {lparen : Symbol} (initEnd : Nat)
    (h : loop.Sound orderly) (hd : orderly → ∀ node ∈ declaration, node.Ordered)
    (hspan : orderly → span.Ordered) (hlparen : orderly → lparen.Ordered) :
    Builds orderly inner (rangingLoop loop declaration span lparen initEnd) := by
  refine (Sound.findWord _ _ _ _).bind fun keyword hkeyword => ?_
  refine (Sound.findLast _ _ _ _).bind fun rparen hrparen => ?_
  refine .enter (fun o => Node.ordered_leaf (hspan o) ?_) ?_
  · split <;> simpa [NodeKind.symbols] using ⟨hlparen o, hkeyword o, hrparen o⟩
  · refine (sound_firstClause _ hd h.init).andThen ((sound_clause _ h.update).andThen ?_)
    exact (sound_loopBody h.body).andThen (.expectChildren 3)

/-- The opening parenthesis is found first, whatever the kind of the loop. -/
theorem sound_forLoop (h : loop.Sound orderly)
    (hd : orderly → ∀ node ∈ declaration, node.Ordered) :
    Builds orderly inner (forLoop loop declaration) := by
  refine (Sound.rangeSpan _ _).bind fun span hspan => ?_
  refine (Sound.find _ _ _ _).bind fun lparen hlparen => ?_
  dsimp only
  split
  · exact sound_classicLoop _ h hd hspan hlparen
  · exact sound_rangingLoop _ h hd hspan hlparen
  · exact sound_rangingLoop _ h hd hspan hlparen

end Loops

/-! ## Functions -/

/-- The node of a computed key spans the brackets, but does not keep them. -/
theorem sound_key {member : MemberFragment} (h : member.Sound orderly) :
    Builds orderly inner (key member) := by
  unfold key
  split
  · exact h.key.builds
  · refine (Sound.findLast _ _ _ _).bind fun lbracket hleft => ?_
    refine (Sound.find _ _ _ _).bind fun rbracket _ => ?_
    refine (Sound.mergeSpans hleft).bind fun span hspan => ?_
    exact .enter (fun o => Node.ordered_bare (hspan o) rfl) h.key.builds

/-- Without a parenthesis at the start, the closing one is not looked for. -/
theorem sound_arrowParens (function : FunctionFragment) :
    Builds orderly inner (arrowParens function) := by
  refine Sound.source.bind fun text _ => Sound.settle.bind fun arrow _ => ?_
  split
  · exact .pure fun _ => trivial
  · exact Sound.settle.bind fun rparen _ => .pure fun _ => trivial

/-- Both parentheses are settled, so up to two tokens may be missed. -/
theorem sound_functionParens (function : FunctionFragment) (nameEnd : Nat) :
    Builds orderly inner (functionParens function nameEnd) :=
  Sound.source.bind fun _ _ => Sound.settle.bind fun _ _ =>
    Sound.settle.bind fun _ _ => .pure fun _ => trivial

/-- The list spans its parentheses, or the only parameter, or is a point. -/
theorem sound_parameterNode (function : FunctionFragment) (parens : Option (Nat × Nat)) :
    Sound orderly inner (parameterNode function parens) Node.Ordered := by
  cases parens with
  | some places =>
    refine (Sound.symbolAt _ _).bind fun lparen hleft => ?_
    refine (Sound.symbolAt _ _).bind fun rparen hright => ?_
    refine (Sound.mergeSpans hleft).bind fun span hspan => .pure fun o => ?_
    exact Node.ordered_leaf (hspan o) (by simpa [NodeKind.symbols] using ⟨hleft o, hright o⟩)
  | none =>
    unfold parameterNode
    dsimp only
    split
    · refine (Sound.rangeSpan _ _).bind fun span hspan => .pure fun o => ?_
      exact Node.ordered_bare (hspan o) rfl
    · exact .pure fun _ => Node.ordered_bare (Span.ordered_point _) rfl

/-- The places of the parentheses are settled before the node is made. -/
theorem sound_parameterList (function : FunctionFragment) (nameEnd : Nat) :
    Sound orderly inner (parameterList function nameEnd) Node.Ordered := by
  unfold parameterList
  dsimp only
  split
  · exact (sound_arrowParens function).bind fun parens _ => sound_parameterNode function parens
  · refine (sound_functionParens function nameEnd).bind fun parens _ => ?_
    exact sound_parameterNode function (some parens)

/-- The node spans the name of the parameter, the ellipsis may be outside. -/
theorem sound_restElement (parameter : Ident) {ellipsis : Option Symbol}
    (h : orderly → ∀ symbol ∈ ellipsis, symbol.Ordered) :
    Builds orderly inner (restElement parameter ellipsis) := by
  refine (Sound.rangeSpan _ _).bind fun span hspan => ?_
  refine (Sound.identifier _ _ _).bind fun name hname => .attach fun o => ?_
  refine Node.ordered_iff.2 ⟨hspan o, fun symbol hsymbol => ?_, ?_⟩
  · exact h o symbol (Option.mem_toList.1 hsymbol)
  · exact List.forall_mem_singleton.2 (hname o)

/-- An ellipsis that is not found is reported as missing, but leaves no symbol. -/
theorem sound_restParameter (parameter : Ident) :
    Builds orderly inner (restParameter parameter) := by
  rw [restParameter]
  refine Sound.source.bind fun _ _ => Sound.gapStart.bind fun _ _ => Sound.settle?.bind ?_
  intro found _
  cases found with
  | none => exact sound_restElement parameter fun _ _ h => by cases h
  | some offset =>
    refine (Sound.symbolAt _ _).bind fun symbol hsymbol => sound_restElement parameter ?_
    rintro o _ ⟨⟩
    exact hsymbol o

/-- The equals sign may be missed, the name is attached first. -/
theorem sound_defaultParameter (parameter : Ident) {value : Fragment} (h : value.Sound orderly) :
    Builds orderly inner (defaultParameter parameter value) := by
  refine (Sound.find _ _ _ _).bind fun equal hequal => ?_
  refine (Sound.rangeSpan _ _).bind fun span hspan => ?_
  refine (Sound.identifier _ _ _).bind fun name hname => ?_
  refine .enter (fun o => Node.ordered_single (hspan o) rfl (hequal o)) ?_
  exact (Sound.attach hname).andThen h.builds

/-- A parameter that can be none of the others leaves a warning, which both modes do alike. -/
theorem sound_parameter {function : FunctionFragment} (parameter : Ident)
    (h : function.Sound orderly) : Builds orderly inner (Rule.parameter function parameter) := by
  have hname : Builds orderly inner (do
      attach (← identifier parameter.range.start parameter.range.finish parameter.name)) :=
    (Sound.identifier _ _ _).bind fun _ hname => .attach hname
  exact parameter_cases (fun _ => sound_restParameter parameter)
    (fun value hvalue => sound_defaultParameter parameter (h.defaults _ hvalue))
    ((Sound.note rfl).andThen hname) hname

/-- The list is opened after its parentheses have been found. -/
theorem sound_parameters {function : FunctionFragment} (nameEnd : Nat)
    (h : function.Sound orderly) : Builds orderly inner (parameters function nameEnd) := by
  refine (sound_parameterList function nameEnd).bind fun list hlist => .enter hlist ?_
  exact Sound.forM fun parameter _ => sound_parameter parameter h

/-- The keyword is settled for its offset only. -/
theorem sound_functionKeyword (nameStart : Nat) :
    Builds orderly inner (functionKeyword nameStart) :=
  Sound.source.bind fun _ _ => Sound.gapStart.bind fun _ _ => Sound.settle.builds

/-- Only a function that may have a keyword looks for one. -/
theorem sound_functionStart (function : FunctionFragment) (member : Option MemberFragment) :
    Builds orderly inner (functionStart function member) := by
  cases member with
  | some member => exact .pure fun _ => trivial
  | none =>
    unfold functionStart
    dsimp only
    split
    · exact .pure fun _ => trivial
    · split
      · exact sound_functionKeyword _
      · exact .pure fun _ => trivial

/-- A function keeps neither its keyword nor its asterisk as symbols. -/
theorem symbols_functionNodeKind (function : FunctionFragment) (isStatic : Bool) :
    (functionNodeKind function isStatic).symbols = [] := by
  unfold functionNodeKind
  split <;> rfl

/-- No kind of function counts as an export statement. -/
theorem isExport_functionNodeKind (function : FunctionFragment) (isStatic : Bool) :
    (functionNodeKind function isStatic).isExport = false := by
  unfold functionNodeKind
  split <;> rfl

/-- A method is named by its key, an anonymous function by a point. -/
theorem sound_functionName (function : FunctionFragment) {member : Option MemberFragment}
    (h : ∀ part ∈ member, part.Sound orderly) :
    Builds orderly inner (functionName function member) := by
  cases member with
  | some member => exact sound_key (h member rfl)
  | none =>
    unfold functionName
    dsimp only
    split
    · exact .pure fun _ => trivial
    · split
      · exact .attach fun _ => Node.ordered_empty _
      · exact (Sound.identifier _ _ _).bind fun _ hname => .attach hname

/-- Name, parameters and body are recovered below the node, in this order. -/
theorem sound_functionNode {function : FunctionFragment} {member : Option MemberFragment}
    (hf : function.Sound orderly) (hm : ∀ part ∈ member, part.Sound orderly) :
    Sound orderly inner (functionNode function member) Node.Ordered := by
  refine (sound_functionStart function member).bind fun start _ => ?_
  refine (Sound.rangeSpan _ _).bind fun span hspan => ?_
  refine .within (fun o => Node.ordered_bare (hspan o) (symbols_functionNodeKind _ _)) ?_
  exact (sound_functionName function hm).andThen ((sound_parameters _ hf).andThen hf.body.builds)

/-! ## Exported declarations -/

/-- An export statement begins in front of its declaration, so its span is in order. -/
theorem sound_wrapExport {node : Node} (isDefault : Bool) (windowStart : Nat)
    (hn : orderly → node.Ordered) :
    Sound orderly inner (wrapExport node isDefault windowStart) Node.Ordered := by
  refine (Sound.findLastWord? _ _ _ _).bind fun keyword hkeyword => ?_
  have hstart : orderly → (keyword.map (·.span.start)).getD node.start ≤ node.last := by
    intro o
    have hnode : node.start ≤ node.last := (hn o).span
    cases keyword with
    | none => exact hnode
    | some symbol =>
      have hsymbol : symbol.span.start < node.start := (hkeyword o symbol rfl).2
      exact hsymbol.le.trans hnode
  refine (Sound.spanBetween hstart).bind fun span hspan => .pure fun o => ?_
  refine Node.ordered_iff.2 ⟨(hspan o).1, fun symbol hsymbol => ?_, ?_⟩
  · have hmem : symbol ∈ keyword := by simpa [Node.symbols, NodeKind.symbols] using hsymbol
    exact (hkeyword o symbol hmem).1
  · exact List.forall_mem_singleton.2 ((hn o).withSemicolon false)

/-- Without an export statement around it, the node stays as it was. -/
theorem sound_exportIf (status : ExportStatus) {node : Node} (windowStart : Nat)
    (hn : orderly → node.Ordered) :
    Sound orderly inner (exportIf status node windowStart) Node.Ordered := by
  unfold exportIf
  split
  · exact sound_wrapExport _ _ hn
  · exact .pure hn

/-- The name behind a declared function is passed over, which is noted and nothing more. -/
theorem sound_functionExpression {function : FunctionFragment} (h : function.Sound orderly) :
    Builds orderly inner (functionExpression function) := by
  refine (Sound.note rfl).andThen (Sound.gapStart.bind fun windowStart _ => ?_)
  refine (sound_functionNode h (by intro _ hnone; cases hnone)).bind fun node hnode => ?_
  dsimp only
  split
  · refine (Sound.exportStatus _).bind fun status _ => ?_
    refine (sound_exportIf status _ hnode).bind fun wrapped hwrapped => ?_
    exact (Sound.attach hwrapped).andThen .skipNextName
  · rw [pure_bind]
    refine (sound_exportIf .hidden _ hnode).bind fun wrapped hwrapped => ?_
    exact (Sound.attach hwrapped).andThen (.pure fun _ => trivial)

/-! ## Members -/

/-- A shorthand has a key only and looks for no colon. -/
theorem sound_pair {member : MemberFragment} {value : Fragment} (hm : member.Sound orderly)
    (hv : value.Sound orderly) : Builds orderly inner (pair member value) := by
  refine (Sound.rangeSpan _ _).bind fun span hspan => ?_
  split
  · exact .enter (fun o => Node.ordered_bare (hspan o) rfl) hm.key.builds
  · refine (Sound.find _ _ _ _).bind fun colon hcolon => ?_
    refine .enter (fun o => Node.ordered_single (hspan o) rfl (hcolon o)) ?_
    exact (sound_key hm).andThen hv.builds

/-- The word of an accessor is settled for its offset only. -/
theorem sound_accessorRange (member : MemberFragment) (function : FunctionFragment)
    (accessor : Accessor) (ownsKey : Bool) :
    Builds orderly inner (accessorRange member function accessor ownsKey) := by
  unfold accessorRange
  dsimp only
  split
  · exact .pure fun _ => trivial
  · refine Sound.source.bind fun _ _ => Sound.gapStart.bind fun _ _ => ?_
    exact Sound.settle.bind fun _ _ => .pure fun _ => trivial

/-- Parts of a node that was in order are in order. -/
theorem sound_accessorParts {function : FunctionFragment} (accessor : Accessor)
    (h : function.Sound orderly) : Builds orderly true (accessorParts function accessor) := by
  refine (sound_functionNode h (by intro _ hnone; cases hnone)).bind fun node hnode => ?_
  have hpart : ∀ part ∈ node.children.reverse, Builds orderly true (attach part) :=
    fun part hpart => .attach fun o => (hnode o).children part (List.mem_reverse.1 hpart)
  have hbody : Builds orderly true (node.children.reverse.head?.toList.forM attach) := by
    refine Sound.forM fun part hmem => hpart part ?_
    exact List.mem_of_mem_head? (Option.mem_toList.1 hmem)
  dsimp only
  split
  · refine (Sound.forM fun part hmem => hpart part ?_).andThen hbody
    exact List.mem_of_mem_drop (List.mem_of_mem_head? (Option.mem_toList.1 hmem))
  · exact hbody

/-- The key or the name of an accessor, and the parts that are kept of its function. -/
theorem sound_accessorBody {member : MemberFragment} {function : FunctionFragment}
    (accessor : Accessor) (ownsKey : Bool) (hm : member.Sound orderly)
    (hf : function.Sound orderly) : Builds orderly true (do
      if ownsKey then key member
      else attach (← identifier function.name.range.start function.name.range.finish
        function.name.name)
      accessorParts function accessor) := by
  dsimp only
  split
  · exact (sound_key hm).andThen (sound_accessorParts accessor hf)
  · refine (Sound.identifier _ _ _).bind fun name hname => ?_
    exact (Sound.attach hname).andThen (sound_accessorParts accessor hf)

/-- The span of an accessor is found before its node is opened. -/
theorem sound_accessor {member : MemberFragment} {function : FunctionFragment}
    (accessor : Accessor) (ownsKey : Bool) (hm : member.Sound orderly)
    (hf : function.Sound orderly) :
    Builds orderly inner (Rule.accessor member function accessor ownsKey) := by
  rw [Rule.accessor]
  refine (sound_accessorRange _ _ _ _).bind fun range _ => ?_
  refine (Sound.rangeSpan _ _).bind fun span hspan => ?_
  refine .enter (fun o => Node.ordered_bare (hspan o) (by cases accessor <;> rfl)) ?_
  exact sound_accessorBody accessor ownsKey hm hf

/-- The accessors of a member are recovered one after the other. -/
theorem sound_accessors {member : MemberFragment} (h : member.Sound orderly) :
    Builds orderly inner (accessors member) := by
  rw [accessors]
  refine Sound.forM fun written hwritten => sound_accessor _ _ h ?_
  have hmem := MemberFragment.mem_accessors (List.fst_mem_of_mem_zipIdx hwritten)
  exact hmem.elim (h.getter _) (h.setter _)

/-- A member without a value fails under the span of its range. -/
theorem sound_member {member : MemberFragment} (h : member.Sound orderly) :
    Builds orderly inner (Rule.member member) := by
  unfold Rule.member
  split
  · exact sound_accessors h
  · split
    · next function hvalue =>
      have hf : function.Sound orderly := h.value (.method function) hvalue
      refine (sound_functionNode hf fun part hpart => ?_).bind fun _ hnode => .attach hnode
      cases hpart
      exact h
    · next value hvalue => exact sound_pair h (h.value (.expression value) hvalue)
    · refine (Sound.rangeSpan _ _).bind fun span hspan => ?_
      exact .throw rfl rfl fun o => Failure.ordered_shape (hspan o)

/-! ## Classes -/

/-- The body spans its braces, the elements are recovered in the order of the text. -/
theorem sound_classBody {definition : ClassFragment} (h : definition.Sound orderly) :
    Builds orderly inner (classBody definition) := by
  refine (Sound.find _ _ _ _).bind fun lbrace hleft => ?_
  refine (Sound.findEndingAt _ _ _ _).bind fun rbrace hright => ?_
  refine (Sound.mergeSpans hleft).bind fun span hspan => ?_
  refine .enter (fun o => Node.ordered_leaf (hspan o) ?_) ?_
  · simpa [NodeKind.symbols] using ⟨hleft o, hright o⟩
  · exact Sound.forM fun element hmem => (h.elements element (List.mem_mergeSort.1 hmem)).relax

/-- The name of a class is put in front of the other parts. -/
theorem sound_classParts {definition : ClassFragment} (name : Option Ident)
    (h : definition.Sound orderly) : Builds orderly true (do
      Fragment.buildOptional definition.heritage
      classBody definition
      match name with
      | none => pure ()
      | some name =>
        attach (← identifier name.range.start name.range.finish name.name)
        if (← getStack).current.childCount == 2 then reorder [1, 0]
        else reorder [2, 0, 1]) := by
  refine (Fragment.sound_buildOptional h.heritage).andThen ((sound_classBody h).andThen ?_)
  cases name with
  | none => exact .pure fun _ => trivial
  | some name =>
    refine (Sound.identifier _ _ _).bind fun node hnode => (Sound.attach hnode).andThen ?_
    refine Sound.getStack.bind fun stack _ => ?_
    split
    · exact .reorder _
    · exact .reorder _

/-- The class has no symbols of its own, its span is that of the range. -/
theorem sound_classNode {definition : ClassFragment} (name : Option Ident)
    (h : definition.Sound orderly) :
    Sound orderly inner (classNode definition name) Node.Ordered := by
  refine (Sound.note rfl).andThen ((Sound.rangeSpan _ _).bind fun span hspan => ?_)
  exact .within (fun o => Node.ordered_bare (hspan o) rfl) (sound_classParts name h)

/-- The class is closed before it is attached. -/
theorem sound_classExpression {definition : ClassFragment} (h : definition.Sound orderly) :
    Builds orderly inner (classExpression definition) :=
  (sound_classNode _ h).bind fun _ hnode => .attach hnode

/-! ## Bindings -/

/-- The value is recovered before the name. -/
theorem sound_valueAndName {binding : BindingFragment} (h : binding.Sound orderly) :
    Builds orderly inner (valueAndName binding) :=
  (Fragment.sound_buildOptional h).andThen (sound_ident _)

/-- The name is put in front of the value, and a missing value is a point. -/
theorem sound_declarationParts {binding : BindingFragment} {span : Span}
    (h : binding.Sound orderly) (hspan : orderly → span.Ordered) :
    Builds orderly true (declarationParts binding span) := by
  refine (sound_valueAndName h).andThen (Sound.getStack.bind fun stack _ => ?_)
  split
  · exact .reorder _
  · exact .attach fun _ => Node.ordered_empty _
  · exact .throw rfl rfl fun o => Failure.ordered_shape (hspan o)

/-- The equals sign is looked for only if there is a value behind it. -/
theorem sound_declaration {binding : BindingFragment} (h : binding.Sound orderly) :
    Sound orderly inner (declaration binding) Node.Ordered := by
  refine (Sound.rangeSpan _ _).bind fun span hspan => ?_
  have hnode : ∀ equal : Option Symbol, (orderly → ∀ symbol ∈ equal, symbol.Ordered) →
      Sound orderly inner (within (.leaf (.declaration equal) span)
        (declarationParts binding span)) Node.Ordered := by
    intro equal hequal
    refine .within (fun o => Node.ordered_leaf (hspan o) fun symbol hsymbol => ?_) ?_
    · exact hequal o symbol (Option.mem_toList.1 hsymbol)
    · exact sound_declarationParts h hspan
  split
  · refine (Sound.find _ _ _ _).bind fun equal hequal => ?_
    refine hnode (some equal) fun o symbol hsymbol => ?_
    cases hsymbol
    exact hequal o
  · exact hnode none fun _ _ hnone => by cases hnone

/-- The span grows by the declarator, which is added behind the others. -/
theorem sound_addDeclarator {declarator node : Node} (hd : orderly → declarator.Ordered)
    (hn : orderly → node.Ordered) :
    Sound orderly inner (addDeclarator declarator node) Node.Ordered := by
  refine (Sound.mergeSpans fun o => (hn o).span).bind fun span hspan => .pure fun o => ?_
  refine (hn o).rebuild (hspan o) (fun child hchild => ?_) _
  rcases List.mem_append.1 hchild with hchild | hchild
  · exact (hn o).children child hchild
  · rw [List.mem_singleton.1 hchild]
    exact hd o

/-- Below an export statement the last child is extended, and both spans grow. -/
theorem sound_extendVariables {statement declarator : Node} (hs : orderly → statement.Ordered)
    (hd : orderly → declarator.Ordered) :
    Sound orderly inner (extendVariables statement declarator) Node.Ordered := by
  unfold extendVariables
  split
  · exact sound_addDeclarator hd hs
  · refine (Sound.mergeSpans fun o => (hs o).span).bind fun span hspan => ?_
    have hlast : ∀ child ∈ statement.lastChild?.toList,
        Sound orderly inner (addDeclarator declarator child) Node.Ordered := fun child hchild =>
      sound_addDeclarator hd fun o => (hs o).lastChild child (Option.mem_toList.1 hchild)
    refine (Sound.mapM hlast).bind fun exported hexported => .pure fun o => ?_
    refine (hs o).rebuild (hspan o) (fun child hchild => ?_) _
    rcases List.mem_append.1 hchild with hchild | hchild
    · exact (hs o).children child (List.dropLast_subset _ hchild)
    · exact hexported o child hchild

/-- A declarator that no statement precedes fails under its own span. -/
theorem sound_continuedVariable {binding : BindingFragment} (h : binding.Sound orderly) :
    Builds orderly inner (continuedVariable binding) := by
  refine (sound_declaration h).bind fun declarator hdeclarator => ?_
  have hstray : Builds orderly inner
      (throw (.shape "Var" .strayDeclarator (some declarator.span)) : Recover Unit) :=
    .throw rfl rfl fun o => Failure.ordered_shape (hdeclarator o).span
  refine (Sound.terminates _ _).bind fun terminated _ => ?_
  refine Sound.getStack.bind fun stack hstack => ?_
  split
  · next statement hlast =>
    split
    · have hstatement : orderly → statement.Ordered := fun o =>
        (hstack o).lastChild statement hlast
      refine (sound_extendVariables hstatement hdeclarator).bind fun extended hextended => ?_
      exact .replaceLast fun o => (hextended o).withSemicolon terminated
    · exact hstray
  · exact hstray

/-- The statement goes from its keyword to the end of the declarator. -/
theorem sound_variableStatement {binding : BindingFragment} (keywordStart windowStart : Nat)
    (h : binding.Sound orderly) :
    Builds orderly inner (variableStatement binding keywordStart windowStart) := by
  refine (Sound.symbolAt _ _).bind fun keyword hkeyword => ?_
  refine (sound_declaration h).bind fun declarator hdeclarator => ?_
  refine (Sound.spanBetween fun o => ?_).bind fun span hspan => ?_
  · have hends : declarator.start ≤ declarator.last := (hdeclarator o).span
    omega
  · refine (Sound.terminates _ _).bind fun terminated _ => ?_
    refine (Sound.exportStatus _).bind fun status _ => ?_
    refine (sound_exportIf status _ fun o => ?_).bind fun _ hwrapped => .attach hwrapped
    refine Node.ordered_iff.2 ⟨(hspan o).1, ?_, ?_⟩
    · exact List.forall_mem_singleton.2 (hkeyword o)
    · exact List.forall_mem_singleton.2 (hdeclarator o)

/-- The search for a keyword of its own reads the text and misses nothing. -/
theorem sound_ownKeyword (keyword : String) (windowStart nameStart : Nat) :
    Builds orderly inner (ownKeyword keyword windowStart nameStart) := by
  refine Sound.source.bind fun text _ => ?_
  dsimp only
  split
  · exact .pure fun _ => trivial
  · exact .pure fun _ => trivial

/-- A keyword is settled only if there is no statement to continue. -/
theorem sound_variableBinding {binding : BindingFragment} (h : binding.Sound orderly) :
    Builds orderly inner (variableBinding binding) := by
  refine Sound.gapStart.bind fun windowStart _ => ?_
  refine (sound_ownKeyword _ _ _).bind fun keyword _ => ?_
  cases keyword with
  | some offset => exact sound_variableStatement _ _ h
  | none =>
    refine Sound.getStack.bind fun stack _ => ?_
    split
    · exact sound_continuedVariable h
    · refine Sound.source.bind fun text _ => Sound.settle.bind fun offset _ => ?_
      exact sound_variableStatement _ _ h

/-- A default export without a value fails under the span of its range. -/
theorem sound_defaultExport {binding : BindingFragment} (h : binding.Sound orderly) :
    Builds orderly inner (defaultExport binding) := by
  unfold defaultExport
  split
  · refine (Sound.rangeSpan _ _).bind fun span hspan => ?_
    exact .throw rfl rfl fun o => Failure.ordered_shape (hspan o)
  · next init hinit =>
    refine Sound.gapStart.bind fun windowStart _ => ?_
    refine (Sound.findLastWord? _ _ _ _).bind fun keyword hkeyword => ?_
    refine (Sound.rangeSpan _ _).bind fun span hspan => ?_
    have hleaf : orderly → (Node.leaf (.exportStatement keyword true none) span).Ordered := by
      intro o
      refine Node.ordered_leaf (hspan o) fun symbol hsymbol => ?_
      have hmem : symbol ∈ keyword := by simpa [NodeKind.symbols] using hsymbol
      exact (hkeyword o symbol hmem).1
    refine (Sound.within hleaf (h init hinit).builds).bind fun node hnode => ?_
    refine Sound.takeSkip.bind fun _ _ => (Sound.terminates _ _).bind fun flag _ => ?_
    exact .attach fun o => (hnode o).withSemicolon flag

/-- The class is wrapped in an export statement after it was closed. -/
theorem sound_exportedClass {definition : ClassFragment} (h : definition.Sound orderly)
    (windowStart : Nat) (status : ExportStatus) (name : Option Ident) :
    Builds orderly inner (exportedClass definition windowStart status name) := by
  refine (sound_classNode name h).bind fun node hnode => ?_
  exact (sound_exportIf status _ hnode).bind fun _ hwrapped => .attach hwrapped

/-- Only a class with a name of its own asks for the status of its name. -/
theorem sound_classDeclaration (name : Ident) {definition : ClassFragment}
    (h : definition.Sound orderly) : Builds orderly inner (classDeclaration name definition) := by
  rw [classDeclaration]
  refine (Sound.note rfl).andThen (Sound.gapStart.bind fun windowStart _ => ?_)
  split
  · exact sound_exportedClass h _ _ _
  · exact (Sound.exportStatus _).bind fun status _ => sound_exportedClass h _ _ _

/-- A binding goes one of three ways, by its name and by what it declares. -/
theorem sound_binding {binding : BindingFragment} (h : binding.Sound orderly) :
    Builds orderly inner (Rule.binding binding) := by
  refine (Sound.note rfl).andThen ?_
  split
  · exact sound_defaultExport h
  · split
    · exact sound_valueAndName h
    · exact sound_variableBinding h

/-! ## Blocks -/

section Blocks

variable {statements : List StatementFragment}

/-- The block spans its braces, which may be at fallback positions. -/
theorem sound_bracedBlock (range : Range)
    (h : ∀ statement ∈ statements, statement.Sound orderly) :
    Builds orderly inner (bracedBlock range statements) := by
  refine (Sound.rangeSpan _ _).bind fun _ _ => ?_
  refine (Sound.findAtOrAfter _ _ _ _).bind fun lbrace hleft => ?_
  refine (Sound.findEndingAt _ _ _ _).bind fun rbrace hright => ?_
  refine (Sound.mergeSpans hleft).bind fun span hspan => ?_
  refine .enter (fun o => Node.ordered_leaf (hspan o) ?_) ?_
  · simpa [NodeKind.symbols] using ⟨hleft o, hright o⟩
  · exact Sound.forM fun statement hmem => (h statement hmem).builds

/-- A block of parameters without a body fails under the span of its range. -/
theorem sound_parameterBlock (range : Range)
    (h : ∀ statement ∈ statements, statement.Sound orderly) :
    Builds orderly inner (parameterBlock range statements) := by
  unfold parameterBlock
  split
  · next body hlast => exact (h body (List.mem_of_getLast? hlast)).builds
  · refine (Sound.rangeSpan _ _).bind fun span hspan => ?_
    exact .throw rfl rfl fun o => Failure.ordered_shape (hspan o)

/-- A node that is no declaration of variables fails under its own span. -/
theorem sound_expectVar {node : Node} (hn : orderly → node.Ordered) :
    Builds orderly inner (expectVar node) := by
  unfold expectVar
  split
  · exact .throw rfl rfl fun o => Failure.ordered_shape (hn o).span
  · exact .pure fun _ => trivial

/-- The span grows by each of the declarators in turn. -/
theorem sound_appendDeclarators {combined node : Node} (hc : orderly → combined.Ordered)
    (hn : orderly → node.Ordered) :
    Sound orderly inner (appendDeclarators combined node) Node.Ordered := by
  refine (sound_expectVar hn).andThen ?_
  refine Sound.bind (Sound.foldlM (fun o => (hc o).span) fun child _ span hspan =>
    Sound.mergeSpans hspan) fun span hspan => .pure fun o => ?_
  refine (hc o).rebuild (hspan o) (fun child hchild => ?_) _
  rcases List.mem_append.1 hchild with hchild | hchild
  · exact (hc o).children child hchild
  · exact (hn o).children child hchild

/-- The first statement is extended by the declarators of the others. -/
theorem sound_combineDeclarations {nodes : List Node}
    (h : orderly → ∀ node ∈ nodes, node.Ordered) :
    Sound orderly inner (combineDeclarations nodes)
      fun combined => ∀ node ∈ combined, node.Ordered := by
  cases nodes with
  | nil => exact .pure fun _ _ hnone => by cases hnone
  | cons first rest =>
    have hfirst : orderly → first.Ordered := fun o => h o first List.mem_cons_self
    refine (sound_expectVar hfirst).andThen ?_
    refine Sound.bind (Sound.foldlM hfirst fun node hmem combined hcombined =>
      sound_appendDeclarators hcombined fun o => h o node (List.mem_cons_of_mem _ hmem))
      fun combined hcombined => .pure fun o node hnode => ?_
    cases hnode
    refine (hcombined o).rebuild (hcombined o).span (fun child hchild => ?_) false
    obtain ⟨other, hother, rfl⟩ := List.mem_map.1 hchild
    exact ((hcombined o).children other hother).withSemicolon false

/-- The declarations are collected below a node that is closed and never attached. -/
theorem sound_declaringLoop {loop : LoopFragment} {declarations : List StatementFragment}
    (hl : loop.Sound orderly) (h : ∀ statement ∈ declarations, statement.Sound orderly) :
    Builds orderly inner (declaringLoop loop declarations) := by
  refine (Sound.note rfl).andThen ((Sound.rangeSpan _ _).bind fun span hspan => ?_)
  have hleaf : orderly → (Node.leaf (.statements none none) span).Ordered :=
    fun o => Node.ordered_bare (hspan o) rfl
  refine (Sound.within hleaf (Sound.forM fun statement hmem => (h statement hmem).builds)).bind ?_
  intro collected hcollected
  refine (sound_combineDeclarations fun o => (hcollected o).children).bind
    fun combined hcombined => ?_
  exact sound_forLoop hl hcombined

/-- The statements in front of the loop are split, some of them go into its header. -/
theorem sound_syntheticBlock (h : ∀ statement ∈ statements, statement.Sound orderly) :
    Builds orderly inner (syntheticBlock statements) := by
  unfold syntheticBlock
  split
  · exact Sound.forM fun statement hmem => (h statement hmem).builds
  · next loop hloop =>
    obtain ⟨last, hlast, hlastLoop⟩ := Option.bind_eq_some_iff.1 hloop
    have hl : loop.Sound orderly := (h last (List.mem_of_getLast? hlast)).loop loop hlastLoop
    have hrest : ∀ statement ∈ statements.dropLast, statement.Sound orderly :=
      fun statement hmem => h statement (List.dropLast_subset _ hmem)
    refine (Sound.forM fun statement hmem => ?_).andThen ?_
    · exact (hrest statement (List.mem_of_mem_take hmem)).builds
    · split
      · exact sound_forLoop hl fun _ _ hnone => by cases hnone
      · exact sound_declaringLoop hl fun statement hmem =>
          hrest statement (List.mem_of_mem_drop hmem)

/-- Each kind of block has a rule of its own. -/
theorem sound_block (range : Range) (kind : BlockKind)
    (h : ∀ statement ∈ statements, statement.Sound orderly) :
    Builds orderly inner (block range kind statements) := by
  cases kind with
  | braced => exact sound_bracedBlock range h
  | parameter => exact sound_parameterBlock range h
  | synthetic => exact sound_syntheticBlock h

end Blocks

/-! ## Imports and exports from other modules -/

/-- A name that is missed leaves no node in lenient mode and ends the run in strict mode. -/
theorem sound_importedName (name : String) (start finish : Nat) :
    Sound orderly inner (importedName name start finish)
      fun found => ∀ node ∈ found, node.Ordered := by
  refine Sound.source.bind fun text _ => Sound.settle?.bind fun found _ => ?_
  cases found with
  | none => exact .pure fun _ _ hnone => by cases hnone
  | some offset =>
    refine (Sound.identifier _ _ _).bind fun node hnode => .pure fun o other hother => ?_
    cases hother
    exact hnode o

/-- The span goes from the asterisk to the name, if both are found. -/
theorem sound_namespaceSpecifier (entry : ImportEntry) (start finish : Nat) :
    Sound orderly inner (namespaceSpecifier entry start finish)
      fun found => ∀ node ∈ found, node.Ordered := by
  refine Sound.source.bind fun text _ => Sound.settle?.bind fun found _ => ?_
  cases found with
  | none => exact .pure fun _ _ hnone => by cases hnone
  | some offset =>
    refine (Sound.symbolAt _ _).bind fun star hstar => ?_
    refine (sound_importedName _ _ _).bind fun name hname => ?_
    cases name with
    | none => exact .pure fun _ _ hnone => by cases hnone
    | some name =>
      refine (Sound.mergeSpans hstar).bind fun span hspan => .pure fun o other hother => ?_
      cases hother
      refine Node.ordered_iff.2 ⟨hspan o, ?_, ?_⟩
      · exact List.forall_mem_singleton.2 (hstar o)
      · exact List.forall_mem_singleton.2 (hname o name rfl)

/-- The names span the specifier. -/
theorem sound_specifierAround {first : Node} {second : Option Node} (hf : orderly → first.Ordered)
    (hs : orderly → ∀ node ∈ second, node.Ordered) :
    Sound orderly inner (specifierAround first second) fun found =>
      ∀ node ∈ found, node.Ordered := by
  refine (Sound.mergeSpans fun o => (hf o).span).bind fun span hspan => ?_
  refine .pure fun o other hother => ?_
  cases hother
  refine Node.ordered_iff.2 ⟨hspan o, fun _ hnone => (by cases hnone), fun child hchild => ?_⟩
  rcases List.mem_cons.1 hchild with rfl | hchild
  · exact hf o
  · exact hs o child (Option.mem_toList.1 hchild)

/-- Without the first name there is no specifier, without the second a shorter one. -/
theorem sound_nameSpecifier (entry : ImportEntry) (start finish : Nat) :
    Sound orderly inner (nameSpecifier entry start finish)
      fun found => ∀ node ∈ found, node.Ordered := by
  rw [nameSpecifier]
  generalize (if entry.isDefault then entry.boundName else entry.importName) = written
  refine (sound_importedName _ _ _).bind fun first hfirst => ?_
  cases first with
  | none => exact .pure fun _ _ hnone => by cases hnone
  | some first =>
    have hordered : orderly → first.Ordered := fun o => hfirst o first rfl
    dsimp only
    split
    · exact sound_specifierAround hordered fun _ _ hnone => by cases hnone
    · exact (sound_importedName _ _ _).bind fun second => sound_specifierAround hordered

/-- The search goes on behind each specifier that was found. -/
theorem sound_specifiers (finish : Nat) (entries : List ImportEntry) (start : Nat) :
    Sound orderly inner (specifiers finish entries start)
      fun nodes => ∀ node ∈ nodes, node.Ordered := by
  induction entries generalizing start with
  | nil => exact .pure fun _ _ hnone => by cases hnone
  | cons entry rest ih =>
    have hrest : ∀ found : Option Node, (orderly → ∀ node ∈ found, node.Ordered) →
        Sound orderly inner (specifiersBehind (specifiers finish rest) start found)
          fun nodes => ∀ node ∈ nodes, node.Ordered := by
      intro found hfound
      cases found with
      | none => exact ih start
      | some specifier =>
        refine (ih _).bind fun nodes hnodes => .pure fun o => List.forall_mem_cons.2 ?_
        exact ⟨hfound o specifier rfl, hnodes o⟩
    rw [specifiers]
    split
    · exact (sound_namespaceSpecifier _ _ _).bind hrest
    · exact (sound_nameSpecifier _ _ _).bind hrest

/-- A path or keyword that is missed is replaced by nothing: the statement is left out. -/
theorem sound_moduleStatement (keyword context request : String) (cursor : Nat) :
    Sound orderly inner (moduleStatement keyword context request cursor)
      fun found => ∀ place ∈ found, place.1.Ordered := by
  refine Sound.source.bind fun text _ => Sound.settle?.bind fun path _ => ?_
  cases path with
  | none => exact .pure fun _ _ hnone => by cases hnone
  | some path =>
    refine Sound.settle?.bind fun offset _ => ?_
    cases offset with
    | none => exact .pure fun _ _ hnone => by cases hnone
    | some offset =>
      refine (Sound.symbolAt _ _).bind fun symbol hsymbol => .pure fun o other hother => ?_
      cases hother
      exact hsymbol o

/-- The span is made from two offsets that are in order by construction. -/
theorem sound_importStatement (request : String) (entries : List ImportEntry) (cursor : Nat) :
    Sound orderly inner (importStatement request entries cursor)
      fun found => ∀ node ∈ found.1, node.Ordered := by
  refine (sound_moduleStatement _ _ _ _).bind fun place hplace => ?_
  cases place with
  | none => exact .pure fun _ _ hnone => by cases hnone
  | some place =>
    obtain ⟨keyword, path⟩ := place
    refine (sound_specifiers _ _ _).bind fun names hnames => ?_
    refine (Sound.symbolOver fun _ => Span.ordered_ofBounds _ _).bind fun symbol hsymbol => ?_
    refine (Sound.endsWithSemicolon _).bind fun flag _ => .pure fun o other hother => ?_
    cases hother
    refine Node.ordered_iff.2 ⟨Span.ordered_ofBounds _ _, ?_, hnames o⟩
    have hkeyword : keyword.Ordered := hplace o _ rfl
    simpa [Node.symbols, NodeKind.symbols] using ⟨hkeyword, hsymbol o⟩

/-- The statements of all groups are in order, one by one. -/
theorem sound_importGroups (groups : List (List ImportEntry)) (cursor : Nat) :
    Sound orderly inner (importGroups groups cursor)
      fun nodes => ∀ node ∈ nodes, node.Ordered := by
  induction groups generalizing cursor with
  | nil => exact .pure fun _ _ hnone => by cases hnone
  | cons entries rest ih =>
    refine (sound_importStatement _ _ _).bind fun found hfound => ?_
    refine (ih _).bind fun nodes hnodes => .pure fun o node hnode => ?_
    rcases List.mem_append.1 hnode with hnode | hnode
    · exact hfound o node (Option.mem_toList.1 hnode)
    · exact hnodes o node hnode

/-- As for imports, with the keyword and the path as the only symbols. -/
theorem sound_starExports (entries : List ExportEntry) (cursor : Nat) :
    Sound orderly inner (starExports entries cursor)
      fun nodes => ∀ node ∈ nodes, node.Ordered := by
  induction entries generalizing cursor with
  | nil => exact .pure fun _ _ hnone => by cases hnone
  | cons entry rest ih =>
    unfold starExports
    split
    · exact ih cursor
    · refine (sound_moduleStatement _ _ _ _).bind fun place hplace => ?_
      cases place with
      | none => exact ih cursor
      | some place =>
        obtain ⟨keyword, path⟩ := place
        refine (Sound.symbolOver fun _ => Span.ordered_ofBounds _ _).bind fun symbol hsymbol => ?_
        refine (Sound.endsWithSemicolon _).bind fun flag _ => ?_
        refine (ih _).bind fun nodes hnodes => .pure fun o => List.forall_mem_cons.2 ⟨?_, hnodes o⟩
        have hkeyword : keyword.Ordered := hplace o _ rfl
        refine Node.ordered_iff.2 ⟨Span.ordered_ofBounds _ _, ?_, List.forall_mem_nil _⟩
        simpa [Node.symbols, NodeKind.symbols] using ⟨hkeyword, hsymbol o⟩

/-- The statements known from the metadata go among the children of the root. -/
theorem sound_moduleItems (info : ModuleInfo) : Builds orderly true (moduleItems info) := by
  refine (sound_importGroups _ _).bind fun imports himports => ?_
  refine (sound_starExports _ _).bind fun exports hexports => ?_
  dsimp only
  split
  · refine (Sound.note rfl).andThen (.modifyStack (fun stack => .setChildren stack _) ?_)
    intro stack o hs
    refine hs.modifyCurrent (hs.current.withChildren fun child hchild => ?_)
    rcases List.mem_append.1 (List.mem_mergeSort.1 hchild) with hchild | hchild
    · exact hs.current.children child hchild
    · rcases List.mem_append.1 hchild with hchild | hchild
      · exact himports o child hchild
      · exact hexports o child hchild
  · exact .pure fun _ => trivial

end Rule

end Concretion
