import Mathlib.Data.List.SplitBy
import Concretion.Proofs.Comments.Steps
import Concretion.Proofs.Leaves.Rules
import Concretion.Recovery.Rule.Block
import Concretion.Recovery.Rule.Branch
import Concretion.Recovery.Rule.Collection
import Concretion.Recovery.Rule.Member
import Concretion.Recovery.Rule.ModuleItems
import Concretion.Recovery.Rule.Operation
import Concretion.Recovery.Rule.Plain
import Concretion.Recovery.Rule.Reference
import Concretion.Recovery.Rule.Try

/-!
# Rules that overlook comments

A rule overlooks comments if the fragments that it puts together do, and if the ranges it reads
begin and end outside of comments. The order of the lemmas is that of the rules.
-/

namespace Concretion

open Recover Text

/-! ## Ranges -/

/-- The range of a literal: no part of it is a comment. -/
structure Range.Uncommented (source : Source) (range : Range) : Prop
    extends range.InCode source where
  inside : ∀ offset < range.finish, range.start ≤ offset → source.inComment offset = false

instance (source : Source) (range : Range) : Decidable (range.Uncommented source) :=
  decidable_of_iff (range.InCode source ∧ ∀ offset < range.finish, range.start ≤ offset →
    source.inComment offset = false) ⟨fun h => ⟨h.1, h.2⟩, fun h => ⟨h.1, h.2⟩⟩

/-- With a single child, to cover it is to merge two spans. -/
theorem Node.cover_singleton (kind : NodeKind) (span : Span) (child : Node) :
    (branch kind span [child]).cover =
      (span.merge child.span).map fun wide => branch kind wide [child] := by
  show ((span.merge child.span >>= fun wide => pure wide) >>= fun wide => pure _) = _
  cases span.merge child.span <;> rfl

/-! ## Fragments -/

section Fragments

variable (a b : Source)

/-- An expression with its range in code, of which the recovery overlooks comments. -/
structure Fragment.Overlooks (fragment : Fragment) : Prop where
  range : fragment.range.InCode a
  build : Passes a b fragment.build

/-- A block with its range in code, of which the recovery overlooks comments. -/
structure BlockFragment.Overlooks (fragment : BlockFragment) : Prop where
  range : fragment.range.InCode a
  build : Passes a b fragment.build

/-- The ranges of a function are in code, and its parts overlook comments. -/
structure FunctionFragment.Overlooks (function : FunctionFragment) : Prop where
  range : function.range.InCode a
  name : function.name.range.InCode a
  parameters : ∀ parameter ∈ function.parameters, parameter.range.InCode a
  body : function.body.Overlooks a b
  defaults : ∀ value ∈ function.defaults, value.2.Overlooks a b

/-- The value of a member overlooks comments. -/
def MemberValue.Overlooks : MemberValue → Prop
  | method function => function.Overlooks a b
  | expression value => value.Overlooks a b

/-- The range of a member is in code, and its parts overlook comments. -/
structure MemberFragment.Overlooks (member : MemberFragment) : Prop where
  range : member.range.InCode a
  key : member.key.Overlooks a b
  value : ∀ value ∈ member.value, value.Overlooks a b
  getter : ∀ function ∈ member.getter, function.Overlooks a b
  setter : ∀ function ∈ member.setter, function.Overlooks a b

/-- The ranges of a class are in code, and its parts overlook comments. -/
structure ClassFragment.Overlooks (definition : ClassFragment) : Prop where
  range : definition.range.InCode a
  name : ∀ name ∈ definition.name, name.range.InCode a
  heritage : ∀ fragment ∈ definition.heritage, fragment.Overlooks a b
  elements : ∀ element ∈ definition.elements, Passes a b element.build

/-- The ranges of a binding are in code, and its value overlooks comments. -/
structure BindingFragment.Overlooks (binding : BindingFragment) : Prop where
  range : binding.range.InCode a
  name : binding.name.range.InCode a
  init : ∀ fragment ∈ binding.init, fragment.Overlooks a b

/-- The range of a loop is in code, and its parts overlook comments. -/
structure LoopFragment.Overlooks (loop : LoopFragment) : Prop where
  range : loop.range.InCode a
  init : ∀ fragment ∈ loop.init, fragment.Overlooks a b
  test : ∀ fragment ∈ loop.test, fragment.Overlooks a b
  update : ∀ fragment ∈ loop.update, fragment.Overlooks a b
  body : loop.body.Overlooks a b

/-- A statement overlooks comments, and so do the parts of a loop. -/
structure StatementFragment.Overlooks (statement : StatementFragment) : Prop where
  build : Passes a b statement.build
  loop : ∀ loop ∈ statement.loop?, loop.Overlooks a b

end Fragments

variable {a b : Source}

/-- A part that is missing reads nothing of the text. -/
theorem Fragment.passes_buildOptional {fragment : Option Fragment}
    (h : ∀ part ∈ fragment, part.Overlooks a b) : Passes a b (buildOptional fragment) := by
  cases fragment with
  | none => exact .pure trivial
  | some part => exact (h part rfl).build

/-- Whether the operand is grouped depends on the operators and not on the text. -/
theorem Fragment.passes_buildBeside {operand : Fragment} (h : operand.Overlooks a b)
    (outer : Operator) (side : Operator.Side) : Passes a b (operand.buildBeside outer side) := by
  refine h.build.andThen ?_
  split
  · exact .groupLastChild
  · exact .pure trivial

/-- As beside an operator, the text does not decide whether there is a group. -/
theorem Fragment.passes_buildObject {operand : Fragment} (h : operand.Overlooks a b) :
    Passes a b operand.buildObject := by
  refine h.build.andThen ?_
  split
  · exact .groupLastChild
  · exact .pure trivial

namespace Rule

/-- Where the last child ends, or else where a placeholder may stand. -/
theorem alike_lastChild {stack : Stack} {place : Nat} (hstack : stack.EndsAlike a b)
    (hplace : a.Alike b place) : a.Alike b ((stack.lastChild?.map Node.last).getD place) := by
  cases hlast : stack.lastChild? with
  | none => exact hplace
  | some child => exact (hstack.lastChild hlast).last

variable (twins : a.Twins b)
include twins

/-- A range that ends in code may be cut short at its start. -/
theorem alike_upTo {range : Range} (h : range.InCode a) (hle : range.start ≤ range.finish)
    {start : Nat} (hstart : start ≤ range.finish) :
    a.Alike b (Span.ofBounds start range.finish).last := by
  rw [Span.ofBounds]
  rcases h.finish with hzero | hcode
  · have hfirst : max (range.finish - 1) start = range.start := by omega
    rw [hfirst]
    exact twins.alike h.start
  · rcases Nat.lt_or_ge start range.finish with hlt | hge
    · rw [Nat.max_eq_left (by omega)]
      exact twins.alike hcode
    · have hbehind := twins.alike_behind hcode
      rw [Nat.max_eq_right (by omega), Nat.le_antisymm hstart hge]
      by_cases hzero : range.finish = 0
      · have hfirst : range.finish = range.start := by omega
        rw [hfirst]
        exact twins.alike h.start
      · rwa [Nat.sub_add_cancel (Nat.pos_of_ne_zero hzero)] at hbehind

/-! ## Identifiers and literals -/

/-- A name that is not passed over has its range in code. -/
theorem passes_ident {name : Ident} (h : name.range.InCode a) : Passes a b (ident name) := by
  refine Overlooks.takeSkip.bind fun skips _ => ?_
  split
  · exact .note _
  · exact (Overlooks.name twins h).bind fun _ hnode => .attach hnode

/-- The texts agree on a literal. -/
theorem alike_uncommented {range : Range} (h : range.Uncommented a) {offset : Nat}
    (hstart : range.start ≤ offset) (hlast : offset ≤ range.span.last) : a.Alike b offset := by
  have hlast : offset ≤ max (range.finish - 1) range.start := hlast
  rcases Nat.lt_or_ge offset range.finish with hlt | hge
  · exact twins.alike (h.inside offset hlt hstart)
  · have hsame : offset = range.start := by omega
    rw [hsame]
    exact twins.alike h.start

/-- There is no comment in the range, so the texts agree on all of the literal. -/
theorem overlooks_verbatim {range : Range} (h : range.Uncommented a) (token : TokenKind)
    (kind : Symbol → NodeKind) :
    Overlooks a b (verbatim range token kind) (Node.EndsAlike a b) := by
  refine (Overlooks.rangeSpan twins _ _).bind fun span hspan => ?_
  obtain ⟨-, rfl⟩ := hspan
  refine (Overlooks.symbolOver twins token fun _ => alike_uncommented twins h).bind fun _ _ => ?_
  refine .pure (Node.endsAlike_leaf (alike_uncommented twins h ?_ (Nat.le_refl _)))
  exact Nat.le_max_right _ _

/-- The digits lie in the range of the number, where the texts agree on every offset. -/
theorem overlooks_numeral {range : Range} (h : range.Uncommented a) {span : Span}
    (hstart : range.start ≤ span.start) (hle : span.start ≤ span.last)
    (hlast : span.last ≤ range.span.last) :
    Overlooks a b (numeral span) (Node.EndsAlike a b) := by
  refine (Overlooks.symbolOver twins _ fun offset hlow hhigh => ?_).bind fun _ _ => ?_
  · exact alike_uncommented twins h (hstart.trans hlow) (hhigh.trans hlast)
  · exact .pure (Node.endsAlike_leaf (alike_uncommented twins h (hstart.trans hle) hlast))

/-- The sign is cut off by its width, which is the same in both texts. -/
theorem overlooks_number {range : Range} (h : range.Uncommented a) :
    Overlooks a b (number range) (Node.EndsAlike a b) := by
  rw [number]
  refine (Overlooks.rangeSpan twins _ _).bind fun full hfull => ?_
  obtain ⟨-, rfl⟩ := hfull
  -- The digits are cut off at a slash, but no comment is in the range, so both texts have the same
  -- slice there.
  have hslice : a.slice range.start range.finish = b.slice range.start range.finish :=
    twins.slice_eq fun offset hlow hhigh => twins.alike (h.inside offset hhigh hlow)
  refine .source (by rw [hslice]) ?_
  dsimp only
  split
  · exact overlooks_numeral twins h (Nat.le_refl _) (Nat.le_max_right _ _) (Nat.le_refl _)
  · next hdigits =>
    refine (Overlooks.spanBetween _ _).bind fun span hspan => ?_
    subst hspan
    cases hwritten : a.slice range.start range.finish with
    | none =>
      rw [hwritten] at hdigits
      exact absurd rfl hdigits
    | some written =>
      rw [hwritten] at hdigits
      have hpos := Text.width_pos fun hnil => hdigits (List.isEmpty_iff.2 hnil)
      have hwidth := (Source.width_of_slice hwritten).1
      have hinside := Text.trimmed_takeWhile_le (· != '/') written.toList
      simp only [Option.getD_some] at hpos ⊢
      refine overlooks_numeral twins h ?_ ?_ ?_ <;> simp only [Range.span, Span.ofBounds] <;> omega

omit twins in
/-- The byte that shows the quotation mark has been read before. -/
theorem overlooks_quoteShown (span : Span) (found : Option UInt8) :
    Overlooks a b (quoteShown span found) fun _ => True := by
  unfold quoteShown
  split
  · exact .pure trivial
  · split
    · exact (Overlooks.note _).andThen (.pure trivial)
    · exact .pure trivial

/-- The closing quote stands behind code, and where the opening one stands is said. -/
theorem overlooks_string {range : Range} (value : String) (h : range.Uncommented a)
    (hquote : a.inComment (range.start - 1) = false) :
    Overlooks a b (string range value) (Node.EndsAlike a b) := by
  have hbyte : a.byteAt (range.start - 1) = b.byteAt (range.start - 1) := twins.alike hquote
  -- The span ends at the closing quote, which stands behind code or is the opening quote itself.
  have hlast : a.Alike b (Span.ofBounds (range.start - 1) (range.finish + 1)).last := by
    rw [Span.ofBounds, Nat.add_sub_cancel]
    rcases Nat.lt_or_ge (range.start - 1) range.finish with hlt | hge
    · rw [Nat.max_eq_left hlt.le]
      have hfinish := h.finish.resolve_left (by omega)
      have hbehind := twins.alike_behind hfinish
      rwa [Nat.sub_add_cancel (by omega)] at hbehind
    · rw [Nat.max_eq_right hge]
      exact twins.alike hquote
  rw [string]
  refine .source (by simp only [twins.size, hbyte]) ?_
  split
  · exact .throw
  · refine (Overlooks.rangeSpan twins _ _).bind fun span hspan => ?_
    obtain ⟨-, rfl⟩ := hspan
    refine (overlooks_quoteShown _ _).bind fun quote _ => (Overlooks.intern _).andThen ?_
    exact .pure (Node.endsAlike_leaf hlast)

/-- A literal has no comment inside, and a string has its opening quote outside of comments. -/
theorem passes_literal {range : Range} {value : Literal} (h : range.Uncommented a)
    (hquote : ∀ text, value = .string text → a.inComment (range.start - 1) = false) :
    Passes a b (literal range value) := by
  have hattach : ∀ {build : Recover Node}, Overlooks a b build (Node.EndsAlike a b) →
      Passes a b (do attach (← build)) :=
    fun h => h.bind fun _ hnode => .attach hnode
  rcases value with _ | text | flag | _ | _
  · exact hattach (overlooks_number twins h)
  · exact hattach (overlooks_string twins text h (hquote text rfl))
  · cases flag
    · exact hattach (overlooks_verbatim twins h _ _)
    · exact hattach (overlooks_verbatim twins h _ _)
  · exact hattach (overlooks_verbatim twins h _ _)
  · exact hattach (overlooks_verbatim twins h _ _)

/-! ## Collections -/

omit twins in
/-- A hole stands where the last child ends or else at the opening bracket, both of them in code. -/
theorem passes_element {hole : Nat} {fragment : Option Fragment} (hhole : a.Alike b hole)
    (h : ∀ part ∈ fragment, part.Overlooks a b) : Passes a b (element hole fragment) := by
  cases fragment with
  | some part => exact (h part rfl).build
  | none =>
    refine Overlooks.getStack.bind fun stack hstack => .attach (Node.endsAlike_leaf ?_)
    exact alike_lastChild hstack hhole

/-- The brackets are looked for outside of comments, from both ends of the range. -/
theorem passes_array {range : Range} {elements : List (Option Fragment)} (hrange : range.InCode a)
    (h : ∀ element ∈ elements, ∀ part ∈ element, part.Overlooks a b) :
    Passes a b (array range elements) := by
  refine (Overlooks.spanIn twins hrange).bind fun span hspan => ?_
  refine (Overlooks.findAtOrAfter twins (by decide) _ hrange.start _).bind fun lbracket hleft => ?_
  refine (Overlooks.findEndingAt twins (by decide) _ _ hrange.finish).bind fun rbracket _ => ?_
  refine .enter (Node.whole_leaf hspan) ?_
  refine (Overlooks.forM fun element he => passes_element hleft.start (h element he)).andThen ?_
  refine Overlooks.getStack.bind fun stack _ => ?_
  dsimp only
  split
  · exact .throw
  · exact .pure trivial

/-- As for arrays, only the ends of the range are read from the text. -/
theorem passes_object {range : Range} {members : List (Recover Unit)} (hrange : range.InCode a)
    (h : ∀ member ∈ members, Passes a b member) : Passes a b (object range members) := by
  refine (Overlooks.spanIn twins hrange).bind fun span hspan => ?_
  refine (Overlooks.findAtOrAfter twins (by decide) _ hrange.start _).bind fun lbrace _ => ?_
  refine (Overlooks.findEndingAt twins (by decide) _ _ hrange.finish).bind fun rbrace _ => ?_
  exact .enter (Node.whole_leaf hspan) (Overlooks.forM h)

/-! ## Operators -/

omit twins in
/-- A call that has a construction around it is no return, so its children end alike. -/
theorem passes_flattenInvoke : Passes a b (modifyStack (·.modifyCurrent Node.flattenInvoke)) := by
  have hflat : ∀ node : Node, ∃ children, node.flattenInvoke = { node with children := children } ∧
      ((∀ child ∈ node.children, child.EndsAlike a b) →
        ∀ child ∈ children, child.EndsAlike a b) := by
    intro node
    unfold Node.flattenInvoke
    split
    · next child hchildren =>
      split
      · next hinvoke =>
        refine ⟨child.children, rfl, fun hnode => ?_⟩
        refine (hnode child (by simp [hchildren])).children ?_
        rw [eq_of_beq hinvoke]
        exact NodeKind.noConfusion
      · exact ⟨node.children, by cases node; rfl, id⟩
    · exact ⟨node.children, by cases node; rfl, id⟩
  have hset : ∀ stack : Stack, ∃ children,
      stack.modifyCurrent Node.flattenInvoke = stack.setChildren children ∧
        (stack.EndsAlike a b → ∀ child ∈ children, child.EndsAlike a b) := by
    intro stack
    obtain ⟨children, hchildren, hends⟩ := hflat stack.current
    refine ⟨children, ?_, fun hs => hends hs.children⟩
    obtain ⟨root, _ | ⟨inner, outer⟩⟩ := stack <;>
      simp only [Stack.current] at hchildren <;>
      simp only [Stack.modifyCurrent, Stack.setChildren, hchildren]
  refine .modifyStack (fun stack hs => ?_) fun stack => ?_
  · obtain ⟨children, hchildren, hends⟩ := hset stack
    rw [hchildren]
    exact hs.setChildren (hends hs)
  · obtain ⟨children, hchildren, -⟩ := hset stack
    rw [hchildren, Stack.outline_setChildren]

omit twins in
/-- A unary operator can be found at the end of a range, having neither slash nor line feed. -/
theorem closing_unary {operator : Operator} {spelling : String} {form : UnaryForm}
    (h : operator.unaryForm = some (spelling, form)) : (Token.ofOperator spelling).Closing := by
  cases operator <;> cases h <;> decide

omit twins in
/-- Division begins with a slash, so it is found as a sign only. The other operators are clear. -/
theorem searchable_binary {operator : Operator} {spelling : String} {form : BinaryForm}
    (h : operator.binaryForm = some (spelling, form)) :
    (Token.ofOperator spelling).Searchable ∧
      ((Token.ofOperator spelling).kind = .keyword → Clear spelling) := by
  cases operator <;> cases h <;> decide

omit twins in
/-- To take a call below `new` apart reads nothing of the text. -/
theorem passes_operandBelow (operator : Operator) (form : UnaryForm) {operand : Fragment}
    (h : operand.Overlooks a b) : Passes a b (operandBelow operator form operand) := by
  refine (Fragment.passes_buildBeside h _ _).andThen ?_
  split
  · exact passes_flattenInvoke
  · exact .pure trivial

/-- An operator behind its operand ends with the range, one in front begins with it. -/
theorem passes_unary {range : Range} (operator : Operator) {operand : Fragment}
    (hrange : range.InCode a) (h : operand.Overlooks a b) :
    Passes a b (unary range operator operand) := by
  rw [unary]
  refine (Overlooks.spanIn twins hrange).bind fun span hspan => ?_
  split
  · exact .throw
  · next spelling form hform =>
    have htoken := closing_unary hform
    have hnode : ∀ symbol : Symbol, Passes a b
        (enter (.leaf (form.nodeKind symbol) span) (operandBelow operator form operand)) :=
      fun symbol => .enter (Node.whole_leaf hspan) (passes_operandBelow operator form h)
    dsimp only
    split
    · exact (Overlooks.findEndingAt twins htoken _ _ hrange.finish).bind fun symbol _ =>
        hnode symbol
    · refine (Overlooks.findAtOrAfter twins (Token.searchable_of_clear htoken.1) _ hrange.start
        _).bind fun symbol _ => hnode symbol

/-- A sign may begin with a slash, a word must not have one. -/
theorem passes_operatorBetween {spelling : String} (start finish : Nat)
    (htoken : (Token.ofOperator spelling).Searchable)
    (hword : (Token.ofOperator spelling).kind = .keyword → Clear spelling) :
    Passes a b (operatorBetween spelling start finish) := by
  unfold operatorBetween
  dsimp only
  split
  · next hkind => exact (Overlooks.findWord twins (hword (eq_of_beq hkind)) _ _ _).passes
  · exact (Overlooks.find twins htoken _ _ _).passes

/-- Only the search for the operator reads the text, and it skips comments. -/
theorem passes_binary {range : Range} (operator : Operator) {left right : Fragment}
    (hrange : range.InCode a) (hl : left.Overlooks a b) (hr : right.Overlooks a b) :
    Passes a b (binary range operator left right) := by
  refine (Overlooks.spanIn twins hrange).bind fun span hspan => ?_
  split
  · exact .throw
  · next spelling form hform =>
    obtain ⟨htoken, hword⟩ := searchable_binary hform
    refine (passes_operatorBetween twins _ _ htoken hword).bind fun symbol _ => ?_
    refine .enter (Node.whole_leaf hspan) ?_
    exact (Fragment.passes_buildBeside hl _ _).andThen (Fragment.passes_buildBeside hr _ _)

/-- As for operators, with two searches. -/
theorem passes_conditional {range : Range} {test consequent alternate : Fragment}
    (hrange : range.InCode a) (ht : test.Overlooks a b) (hc : consequent.Overlooks a b)
    (ha : alternate.Overlooks a b) :
    Passes a b (conditional range test consequent alternate) := by
  refine (Overlooks.spanIn twins hrange).bind fun span hspan => ?_
  refine (Overlooks.find twins (by decide) _ _ _).bind fun question _ => ?_
  refine (Overlooks.find twins (by decide) _ _ _).bind fun colon _ => ?_
  refine .enter (Node.whole_leaf hspan) ((Fragment.passes_buildBeside ht _ _).andThen ?_)
  exact (Fragment.passes_buildBeside hc _ _).andThen (Fragment.passes_buildBeside ha _ _)

/-! ## Calls and member access -/

/-- The argument list ends with its closing parenthesis. -/
theorem overlooks_argumentParens {range : Range} (hrange : range.InCode a) {opening : Nat}
    (hopening : (Token.leftParen.at opening).Alike a b) :
    Overlooks a b (argumentParens range opening) fun list => ∀ node ∈ list, node.Whole a b := by
  refine (Overlooks.symbolAt hopening).bind fun lparen hleft => ?_
  refine (Overlooks.findEndingAt twins (by decide) _ _ hrange.finish).bind fun rparen hright => ?_
  refine (Overlooks.mergeSpans hleft.last hright.last).bind fun span hspan => .pure ?_
  rintro node ⟨⟩
  exact Node.whole_leaf hspan

/-- The search for the opening parenthesis begins at the callee, at the same place in both texts. -/
theorem overlooks_argumentList {range : Range} (calleeEnd : Nat) (arguments : List Fragment)
    (hrange : range.InCode a) :
    Overlooks a b (argumentList range calleeEnd arguments)
      fun list => ∀ node ∈ list, node.Whole a b := by
  have htoken : 0x2F ∉ (pattern "(").tail := by decide
  cases arguments with
  | nil =>
    have hsame := twins.find_eq htoken calleeEnd range.finish
    rw [argumentList]
    refine .source (by simp only [hsame]) ?_
    cases hfound : a.find "(" calleeEnd range.finish with
    | none => exact .pure fun _ hnone => by cases hnone
    | some opening =>
      refine overlooks_argumentParens twins hrange (Source.alike_of_spells ?_ ?_)
      · exact Source.spells_of_find (by decide) hfound
      · exact Source.spells_of_find (by decide) (hsame ▸ hfound)
  | cons first rest =>
    have hsame := twins.locate_eq htoken "Arguments" calleeEnd first.range.start
    rw [argumentList]
    refine .source (by simp only [hsame]) ((Overlooks.settle _ _).bind fun opening hfound => ?_)
    refine overlooks_argumentParens twins hrange (Source.alike_of_locates ?_ ?_ hfound)
    · exact Source.locates_locate (by decide)
    · exact hsame ▸ Source.locates_locate (by decide)

/-- The list ends alike when it is taken back, for it did when it was put on the shelf. -/
theorem passes_call {range : Range} {callee : Fragment} {arguments : List Fragment}
    (hrange : range.InCode a) (hc : callee.Overlooks a b)
    (ha : ∀ argument ∈ arguments, argument.Overlooks a b) :
    Passes a b (call range callee arguments) := by
  refine (Overlooks.spanIn twins hrange).bind fun span hspan => ?_
  refine (overlooks_argumentList twins _ _ hrange).bind fun list hlist => ?_
  refine .enter (Node.whole_leaf hspan) ?_
  cases list with
  | none => exact Fragment.passes_buildObject hc
  | some list =>
    refine (Overlooks.defer (hlist list rfl)).bind fun ticket _ => ?_
    refine (Fragment.passes_buildObject hc).andThen ?_
    refine (Overlooks.takeDeferred ticket).bind fun taken htaken => .enter htaken ?_
    exact Overlooks.forM fun argument hargument => (ha argument hargument).build

/-- The name reaches to the end of the range, wherever it is said to start. -/
theorem passes_access {range : Range} {base : Fragment} (property : String)
    (hrange : range.InCode a) (h : base.Overlooks a b) :
    Passes a b (access range base property) := by
  refine (Overlooks.rangeSpan twins _ _).bind fun span hspan => ?_
  obtain ⟨hle, rfl⟩ := hspan
  have hspan := Source.alike_ofBounds (twins.alike hrange.start) (twins.alikeBefore hrange.finish)
  refine (Overlooks.find twins (by decide) _ _ _).bind fun dot _ => ?_
  have hname : ∀ start, Overlooks a b (identifier start range.finish property)
      (Node.EndsAlike a b) := by
    intro start
    refine (Overlooks.rangeSpan twins _ _).bind fun span hspan => ?_
    obtain ⟨hstart, rfl⟩ := hspan
    refine (Overlooks.intern _).andThen (.pure (Node.endsAlike_leaf ?_))
    exact alike_upTo twins hrange hle hstart
  refine (hname _).bind fun name hname => .enter (Node.whole_leaf hspan) ?_
  exact (Fragment.passes_buildObject h).andThen (.attach hname)

/-- The closing bracket is looked for at the end of the range, which is in code. -/
theorem passes_index {range : Range} {base index : Fragment} (hrange : range.InCode a)
    (hb : base.Overlooks a b) (hi : index.Overlooks a b) :
    Passes a b (Rule.index range base index) := by
  refine (Overlooks.spanIn twins hrange).bind fun span hspan => ?_
  refine (Overlooks.find twins (by decide) _ _ _).bind fun lbracket _ => ?_
  refine (Overlooks.findEndingAt twins (by decide) _ _ hrange.finish).bind fun rbracket _ => ?_
  exact .enter (Node.whole_leaf hspan) ((Fragment.passes_buildObject hb).andThen hi.build)

/-! ## Plain statements -/

/-- In front of the semicolon the search starts from a byte in code. -/
theorem overlooks_withSemicolon {node : Node} {finish : Nat} (hn : node.EndsAlike a b)
    (hfinish : a.CodeBefore finish) :
    Overlooks a b (withSemicolon node finish) (Node.EndsAlike a b) :=
  (Overlooks.terminates twins hn.last hfinish).bind fun flag _ => .pure (hn.withSemicolon flag)

/-- The range of the expression ends in code, so the semicolon behind it is the same. -/
theorem passes_expressionStatement {expression : Fragment} (h : expression.Overlooks a b) :
    Passes a b (expressionStatement expression) := by
  refine h.build.andThen (Overlooks.getStack.bind fun stack hstack => ?_)
  split
  · exact .pure trivial
  · next statement hlast =>
    refine (overlooks_withSemicolon twins (hstack.lastChild hlast) h.range.finish).bind ?_
    exact fun marked hmarked => .replaceLast hmarked

/-- The semicolon of an empty statement is not looked for. -/
theorem passes_emptyStatement {range : Range} (hrange : range.InCode a) :
    Passes a b (emptyStatement range) := by
  refine (Overlooks.spanIn twins hrange).bind fun span hspan => .attach ?_
  have hleaf : (Node.leaf .emptyStatement span).EndsAlike a b := Node.endsAlike_leaf hspan
  exact hleaf.withSemicolon true

/-- The statement ends in code, and so does the node that has been closed. -/
theorem passes_throwStatement {range : Range} {value : Fragment} (hrange : range.InCode a)
    (h : value.Overlooks a b) : Passes a b (throwStatement range value) := by
  refine (Overlooks.spanIn twins hrange).bind fun span hspan => ?_
  refine (Overlooks.within (Node.whole_leaf hspan) h.build).bind fun node hnode => ?_
  exact (overlooks_withSemicolon twins hnode.endsAlike hrange.finish).bind fun _ hmarked =>
    .attach hmarked

omit twins in
/-- The placeholder of a return without a value may stand in a comment, but it does not reach beyond
the return. -/
theorem overlooks_bareReturn {span : Span} (place : Nat) (hspan : a.Alike b span.last) :
    Overlooks a b (within (.leaf .returnStatement span) (attach (.empty (min place span.last))))
      (Node.EndsAlike a b) := by
  -- Only the placeholder is attached, so the whole run can be written down, and it does not read
  -- the text.
  have hrun : ∀ (scope : Scope) (session : Session),
      (within (.leaf .returnStatement span) (attach (.empty (min place span.last)))).outcome scope
        session = (((Node.branch .returnStatement span
          [.empty (min place span.last)]).cover.mapError .reversed).bind fun covered =>
            (Except.ok ()).map fun _ => covered,
          Session.closing { session.opening (.leaf .returnStatement span) with
            stack := session.stack.push (.branch .returnStatement span
              [.empty (min place span.last)]) } session.stack .returnStatement) :=
    fun _ _ => outcome_within rfl rfl
  constructor
  · intro info session _
    rw [hrun, hrun]
  · intro info session last covered hs h
    rw [hrun] at h
    obtain ⟨hcovered, rfl⟩ := Prod.mk.inj h
    refine ⟨⟨hs.stack, hs.shelf⟩, rfl, ?_⟩
    rw [Node.cover_singleton] at hcovered
    cases hmerged : span.merge (Node.empty (min place span.last)).span with
    | error ends =>
      rw [hmerged] at hcovered
      cases hcovered
    | ok wide =>
      rw [hmerged] at hcovered
      cases hcovered
      refine ⟨?_, fun hkind => absurd rfl hkind⟩
      obtain ⟨-, rfl⟩ := Span.make_eq_ok_iff.1 hmerged
      show a.Alike b (max span.last (min place span.last))
      rwa [Nat.max_eq_left (Nat.min_le_right _ _)]

/-- A value is recovered like any other, only the placeholder for a missing one is not. -/
theorem passes_returnStatement {range : Range} {value : Option Fragment} (isGenerated : Bool)
    (hrange : range.InCode a) (h : ∀ part ∈ value, part.Overlooks a b) :
    Passes a b (returnStatement range value isGenerated) := by
  unfold returnStatement
  split
  · exact Fragment.passes_buildOptional h
  · refine (Overlooks.spanIn twins hrange).bind fun span hspan => ?_
    have hreturn : ∀ {build : Recover Node}, Overlooks a b build (Node.EndsAlike a b) →
        Passes a b (do attach (← withSemicolon (← build) range.finish)) :=
      fun h => h.bind fun _ hnode =>
        (overlooks_withSemicolon twins hnode hrange.finish).bind fun _ hmarked => .attach hmarked
    cases value with
    | some part =>
      have hleaf : (Node.leaf .returnStatement span).Whole a b := Node.whole_leaf hspan
      exact hreturn ((Overlooks.within hleaf (h part rfl).build).mono fun _ => Node.Whole.endsAlike)
    | none => exact hreturn (overlooks_bareReturn _ hspan)

/-- The label is looked for as a word without a slash. -/
theorem passes_jumpLabel (range : Range) (keyword : String) {label : String} (h : Clear label) :
    Passes a b (jumpLabel range keyword label) := by
  refine .source (by simp only [twins.locateWord_eq h]) ?_
  exact (Overlooks.settle _ _).bind fun offset _ => .symbol _ _

/-- The byte in front of the end is in code, so it is the same semicolon or none. -/
theorem passes_jump {range : Range} (kind : JumpKind) {label : Option String}
    (hrange : range.InCode a) (h : ∀ text ∈ label, Clear text) :
    Passes a b (jump range kind label) := by
  refine (Overlooks.spanIn twins hrange).bind fun span hspan => ?_
  have hlabel : Passes a b (label.mapM (jumpLabel range kind.keyword)) := by
    cases label with
    | none => exact .pure trivial
    | some label =>
      exact (passes_jumpLabel twins _ _ (h label rfl)).bind fun symbol _ => .pure trivial
  refine hlabel.bind fun located _ => ?_
  refine (Overlooks.endsWithSemicolon twins (twins.alikeBefore hrange.finish)).bind fun flag _ => ?_
  exact .attach ((Node.endsAlike_leaf hspan).withSemicolon flag)

/-- The label has to end outside of comments as well, for it may be the last part of the node. -/
theorem passes_labelled {range : Range} {label : String} {body : BlockFragment}
    (hrange : range.InCode a) (hlabel : a.CodeBefore (range.start + label.utf8ByteSize))
    (h : body.Overlooks a b) : Passes a b (labelled range label body) := by
  refine (Overlooks.spanIn twins hrange).bind fun span hspan => ?_
  refine (Overlooks.find twins (by decide) _ _ _).bind fun colon _ => ?_
  refine (Overlooks.identifier twins label (twins.alike hrange.start)
    (twins.alikeBefore hlabel)).bind fun name hname => ?_
  exact .enter (Node.whole_leaf hspan) ((Overlooks.attach hname).andThen h.build)

/-! ## Branching statements -/

/-- A missing branch stands where the last child ends, which is in code. -/
theorem passes_ifElse {range : Range} {test : Fragment} {pass : BlockFragment}
    {fail : Option BlockFragment} (hrange : range.InCode a) (ht : test.Overlooks a b)
    (hp : pass.Overlooks a b) (hf : ∀ block ∈ fail, block.Overlooks a b) :
    Passes a b (ifElse range test pass fail) := by
  refine (Overlooks.spanIn twins hrange).bind fun span hspan => ?_
  refine (Overlooks.find twins (by decide) _ _ _).bind fun lparen _ => ?_
  refine (Overlooks.find twins (by decide) _ _ _).bind fun rparen _ => ?_
  refine .enter (Node.whole_leaf hspan) (ht.build.andThen (hp.build.andThen ?_))
  cases fail with
  | some fail => exact (hf fail rfl).build.andThen (.expectChildren 3)
  | none =>
    refine Overlooks.getStack.bind fun stack hstack => ?_
    have hplace := alike_lastChild hstack hspan
    exact (Overlooks.attach (Node.endsAlike_empty hplace)).andThen (.expectChildren 3)

/-- Four searches read the text, none of them looks into a comment. -/
theorem passes_switch {range : Range} {subject : Fragment} {cases : List (Range × Recover Unit)}
    (hrange : range.InCode a) (hs : subject.Overlooks a b)
    (hc : ∀ clause ∈ cases, Passes a b clause.2) : Passes a b (switch range subject cases) := by
  refine (Overlooks.spanIn twins hrange).bind fun span hspan => ?_
  refine (Overlooks.find twins (by decide) _ _ _).bind fun lparen _ => ?_
  refine (Overlooks.find twins (by decide) _ _ _).bind fun rparen _ => ?_
  refine (Overlooks.find twins (by decide) _ _ _).bind fun lbrace _ => ?_
  refine (Overlooks.findEndingAt twins (by decide) _ _ hrange.finish).bind fun rbrace _ => ?_
  exact .enter (Node.whole_leaf hspan) (hs.build.andThen (Overlooks.forM hc))

/-- The clause ends with its range or with its colon, both of them in code. -/
theorem passes_caseNode {clause : CaseFragment} (hrange : clause.range.InCode a)
    (ht : ∀ test ∈ clause.test, test.Overlooks a b)
    (hs : ∀ statement ∈ clause.statements, statement.Overlooks a b) (kind : NodeKind)
    {colon : Symbol} (hcolon : colon.Alike a b) : Passes a b (caseNode clause kind colon) := by
  refine (Overlooks.spanIn twins hrange).bind fun full hfull => ?_
  refine (Overlooks.mergeSpans hfull hcolon.last).bind fun span hspan => ?_
  refine .enter (Node.whole_leaf hspan) ((Fragment.passes_buildOptional ht).andThen ?_)
  exact Overlooks.forM fun statement hstatement => (hs statement hstatement).build

/-- Both kinds of clauses look for a colon and are alike otherwise. -/
theorem passes_switchCase {clause : CaseFragment} (hrange : clause.range.InCode a)
    (ht : ∀ test ∈ clause.test, test.Overlooks a b)
    (hs : ∀ statement ∈ clause.statements, statement.Overlooks a b) :
    Passes a b (switchCase clause) := by
  rw [switchCase]
  split
  · exact (Overlooks.find twins (by decide) _ _ _).bind fun colon hcolon =>
      passes_caseNode twins hrange ht hs _ hcolon
  · exact (Overlooks.find twins (by decide) _ _ _).bind fun colon hcolon =>
      passes_caseNode twins hrange ht hs _ hcolon

/-- The parentheses around the test are found outside of comments. -/
theorem passes_whileLoop {range : Range} {test : Fragment} {body : BlockFragment}
    (hrange : range.InCode a) (ht : test.Overlooks a b) (hb : body.Overlooks a b) :
    Passes a b (whileLoop range test body) := by
  refine (Overlooks.spanIn twins hrange).bind fun span hspan => ?_
  refine (Overlooks.find twins (by decide) _ _ _).bind fun lparen _ => ?_
  refine (Overlooks.find twins (by decide) _ _ _).bind fun rparen _ => ?_
  exact .enter (Node.whole_leaf hspan) (ht.build.andThen hb.build)

/-- The loop ends in code, and so its semicolon is the same. -/
theorem passes_doLoop {range : Range} {test : Fragment} {body : BlockFragment}
    (hrange : range.InCode a) (ht : test.Overlooks a b) (hb : body.Overlooks a b) :
    Passes a b (doLoop range test body) := by
  refine (Overlooks.spanIn twins hrange).bind fun span hspan => ?_
  refine (Overlooks.find twins (by decide) _ _ _).bind fun lparen _ => ?_
  refine (Overlooks.find twins (by decide) _ _ _).bind fun rparen _ => ?_
  refine (Overlooks.within (Node.whole_leaf hspan) (hb.build.andThen ht.build)).bind ?_
  intro node hnode
  refine (Overlooks.endsWithSemicolon twins (twins.alikeBefore hrange.finish)).bind fun flag _ => ?_
  exact .attach (hnode.endsAlike.withSemicolon flag)

/-- The parentheses around the object are found outside of comments. -/
theorem passes_withScope {range : Range} {subject : Fragment} {body : BlockFragment}
    (hrange : range.InCode a) (hs : subject.Overlooks a b) (hb : body.Overlooks a b) :
    Passes a b (withScope range subject body) := by
  refine (Overlooks.spanIn twins hrange).bind fun span hspan => ?_
  refine (Overlooks.find twins (by decide) _ _ _).bind fun lparen _ => ?_
  refine (Overlooks.find twins (by decide) _ _ _).bind fun rparen _ => ?_
  exact .enter (Node.whole_leaf hspan) (hs.build.andThen hb.build)

/-! ## `try` statements -/

/-- The name of the exception has its range in code. -/
theorem passes_catchClause {range : Range} {exception : Ident} {body : BlockFragment}
    (hrange : range.InCode a) (he : exception.range.InCode a) (h : body.Overlooks a b) :
    Passes a b (catchClause range exception body) := by
  refine (Overlooks.spanIn twins hrange).bind fun span hspan => ?_
  exact .enter (Node.whole_leaf hspan) ((passes_ident twins he).andThen h.build)

/-- The clause ends where its block ends, which the texts agree on. -/
theorem passes_finallyClause (finallyStart : Nat) : Passes a b (finallyClause finallyStart) := by
  refine Overlooks.getStack.bind fun stack hstack => ?_
  split
  · next body handler block hchildren =>
    have hblock : block.EndsAlike a b := hstack.children block (by simp [hchildren])
    refine (Overlooks.findWord twins (by decide) _ _ _).bind fun keyword hkeyword => ?_
    refine (Overlooks.mergeSpans hkeyword.last hblock.last).bind fun span hspan => ?_
    exact .wrapChild 2 (Node.whole_leaf hspan)
  · exact Overlooks.getStack.bind fun stack _ => .throw

/-- Without a finalizer nothing is looked for. -/
theorem passes_finallyLast (finalizer : Option BlockFragment) :
    Passes a b (finallyLast finalizer) := by
  cases finalizer with
  | none => exact .pure trivial
  | some finalizer => exact passes_finallyClause twins _

omit twins in
/-- The place of a missing finalizer is the end of the statement, which is in code. -/
theorem passes_finallyBlock {finalizer : Option BlockFragment} {last : Nat}
    (h : ∀ block ∈ finalizer, block.Overlooks a b) (hlast : a.Alike b last) :
    Passes a b (finallyBlock finalizer last) := by
  cases finalizer with
  | none => exact .attach (Node.endsAlike_empty hlast)
  | some finalizer => exact (h finalizer rfl).build

/-- To count and to reorder the parts reads nothing of the text. -/
theorem passes_tryEnd (finalizer : Option BlockFragment) : Passes a b (tryEnd finalizer) :=
  (Overlooks.expectChildren 3).andThen
    ((Overlooks.reorder _).andThen (passes_finallyLast twins finalizer))

/-- A missing handler stands where the last child ends or else at the end of the statement. -/
theorem passes_tryParts {body : BlockFragment} {catches : List (Recover Unit)}
    {finalizer : Option BlockFragment} {last : Nat} (hlast : a.Alike b last)
    (hb : body.Overlooks a b) (hc : ∀ clause ∈ catches, Passes a b clause)
    (hf : ∀ block ∈ finalizer, block.Overlooks a b) :
    Passes a b (tryParts body catches finalizer last) := by
  refine (passes_finallyBlock hf hlast).andThen (hb.build.andThen ?_)
  refine (Overlooks.forM hc).andThen ?_
  dsimp only
  split
  · refine Overlooks.getStack.bind fun stack hstack => ?_
    have hplace := alike_lastChild hstack hlast
    exact (Overlooks.attach (Node.endsAlike_empty hplace)).andThen (passes_tryEnd twins finalizer)
  · exact passes_tryEnd twins finalizer

/-- The end of the statement is in code, where a placeholder may stand. -/
theorem passes_tryCatch {range : Range} {body : BlockFragment} {catches : List (Recover Unit)}
    {finalizer : Option BlockFragment} (hrange : range.InCode a) (hb : body.Overlooks a b)
    (hc : ∀ clause ∈ catches, Passes a b clause) (hf : ∀ block ∈ finalizer, block.Overlooks a b) :
    Passes a b (tryCatch range body catches finalizer) := by
  rw [tryCatch]
  refine (Overlooks.note _).andThen ((Overlooks.spanIn twins hrange).bind fun span hspan => ?_)
  split
  · exact .throw
  · exact .enter (Node.whole_leaf hspan) (passes_tryParts twins hspan hb hc hf)

/-! ## Loops -/

omit twins in
/-- The placeholder has to be where the texts agree. -/
theorem passes_clause {fragment : Option Fragment} {placeholder : Nat}
    (h : ∀ part ∈ fragment, part.Overlooks a b) (hplace : a.Alike b placeholder) :
    Passes a b (clause fragment placeholder) := by
  cases fragment with
  | some part => exact (h part rfl).build
  | none => exact .attach (Node.endsAlike_empty hplace)

omit twins in
/-- Declarations that were moved here end alike, and a placeholder stands in code. -/
theorem passes_firstClause {declaration : Option Node} {init : Option Fragment}
    {placeholder : Nat} (hd : ∀ node ∈ declaration, node.EndsAlike a b)
    (h : ∀ part ∈ init, part.Overlooks a b) (hplace : a.Alike b placeholder) :
    Passes a b (firstClause declaration init placeholder) := by
  cases declaration with
  | some node => exact .attach (hd node rfl)
  | none => exact passes_clause h hplace

/-- An empty block in place of the body has the range of the body, which ends in code. -/
theorem passes_loopBody {body : BlockFragment} (h : body.Overlooks a b) :
    Passes a b (loopBody body) := by
  refine Overlooks.getStack.bind fun before _ => h.build.andThen ?_
  refine Overlooks.getStack.bind fun after _ => ?_
  split
  · exact (Overlooks.spanIn twins h.range).bind fun span hspan =>
      .attach (Node.endsAlike_leaf hspan)
  · exact .pure trivial

section Loops

variable {loop : LoopFragment} {declaration : Option Node}

/-- Missing clauses stand at the symbols in front of them, which are never in a comment. -/
theorem passes_classicLoop {span : Span} {lparen : Symbol} (initEnd : Nat)
    (h : loop.Overlooks a b) (hd : ∀ node ∈ declaration, node.EndsAlike a b)
    (hspan : a.Alike b span.last) (hlparen : lparen.Alike a b) :
    Passes a b (classicLoop loop declaration span lparen initEnd) := by
  refine (Overlooks.find twins (by decide) _ _ _).bind fun semi1 hsemi1 => ?_
  refine (Overlooks.find twins (by decide) _ _ _).bind fun semi2 hsemi2 => ?_
  refine (Overlooks.findLast twins (by decide) _ _ _).bind fun rparen _ => ?_
  refine .enter (Node.whole_leaf hspan) ?_
  refine (passes_firstClause hd h.init hlparen.start).andThen ?_
  refine (passes_clause h.test hsemi1.start).andThen
    ((passes_clause h.update hsemi2.start).andThen ?_)
  exact (passes_loopBody twins h.body).andThen (.expectChildren 4)

/-- The keyword between the clauses is a word without a slash. -/
theorem passes_rangingLoop {span : Span} {lparen : Symbol} (initEnd : Nat)
    (h : loop.Overlooks a b) (hd : ∀ node ∈ declaration, node.EndsAlike a b)
    (hspan : a.Alike b span.last) (hlparen : lparen.Alike a b) :
    Passes a b (rangingLoop loop declaration span lparen initEnd) := by
  have hword : Clear (if loop.kind == .keys then "in" else "of") := by
    split <;> decide
  refine (Overlooks.findWord twins hword _ _ _).bind fun keyword hkeyword => ?_
  refine (Overlooks.findLast twins (by decide) _ _ _).bind fun rparen _ => ?_
  refine .enter (Node.whole_leaf hspan) ?_
  refine (passes_firstClause hd h.init hlparen.start).andThen ?_
  refine (passes_clause h.update hkeyword.last).andThen ?_
  exact (passes_loopBody twins h.body).andThen (.expectChildren 3)

/-- The opening parenthesis is where the first clause stands if it is missing. -/
theorem passes_forLoop (h : loop.Overlooks a b) (hd : ∀ node ∈ declaration, node.EndsAlike a b) :
    Passes a b (forLoop loop declaration) := by
  refine (Overlooks.spanIn twins h.range).bind fun span hspan => ?_
  refine (Overlooks.find twins (by decide) _ _ _).bind fun lparen hlparen => ?_
  dsimp only
  split
  · exact passes_classicLoop twins _ h hd hspan hlparen
  · exact passes_rangingLoop twins _ h hd hspan hlparen
  · exact passes_rangingLoop twins _ h hd hspan hlparen

end Loops

/-! ## Functions -/

/-- The brackets of a computed key are found in code, and the node ends with the closing one. -/
theorem passes_key {member : MemberFragment} (h : member.Overlooks a b) :
    Passes a b (key member) := by
  unfold key
  split
  · exact h.key.build
  · refine (Overlooks.findLast twins (by decide) _ _ _).bind fun lbracket hleft => ?_
    refine (Overlooks.find twins (by decide) _ _ _).bind fun rbracket hright => ?_
    refine (Overlooks.mergeSpans hleft.last hright.last).bind fun span hspan => ?_
    exact .enter (Node.whole_leaf hspan) h.key.build

/-- The texts agree on the parentheses at two offsets. -/
def AlikeParens (a b : Source) (places : Nat × Nat) : Prop :=
  (Token.leftParen.at places.1).Alike a b ∧ (Token.rightParen.at places.2).Alike a b

/-- A parenthesis that is located in one text spells both of them. -/
theorem alike_rightParen {context : String} {start finish offset : Nat}
    (h : a.locateLast context ")" start finish = .ok offset) :
    (Token.rightParen.at offset).Alike a b := by
  have htoken : 0x2F ∉ (pattern ")").tail := by decide
  have hsame := twins.locateLast_eq htoken context start finish
  refine Source.alike_of_locates ?_ ?_ h
  · exact Source.locates_locateLast (by decide)
  · exact hsame ▸ Source.locates_locateLast (by decide)

/-- An arrow function begins outside of comments, so it can be read whether it begins with a
parenthesis. -/
theorem overlooks_arrowParens {function : FunctionFragment} (h : function.range.InCode a) :
    Overlooks a b (arrowParens function) fun parens =>
      ∀ places ∈ parens, AlikeParens a b places := by
  have harrow : 0x2F ∉ (pattern "=>").tail := by decide
  have hparen : 0x2F ∉ (pattern ")").tail := by decide
  have hbyte : a.byteAt function.range.start = b.byteAt function.range.start := twins.alike h.start
  refine .source (by simp only [twins.locate_eq harrow, twins.locateLast_eq hparen, hbyte]) ?_
  refine (Overlooks.settle _ _).bind fun arrow _ => ?_
  split
  · exact .pure fun _ hnone => by cases hnone
  · next hopening =>
    have hopens : a.byteAt function.range.start = some 0x28 := by simpa using hopening
    refine (Overlooks.settle _ _).bind fun rparen hrparen => .pure ?_
    rintro places ⟨⟩
    refine ⟨Source.alike_of_spells ?_ ?_, alike_rightParen twins hrparen⟩
    · exact Source.spells_leftParen hopens
    · exact Source.spells_leftParen (hbyte ▸ hopens)

/-- Both parentheses are located in both texts, at the same places. -/
theorem overlooks_functionParens (function : FunctionFragment) (nameEnd : Nat) :
    Overlooks a b (functionParens function nameEnd) (AlikeParens a b) := by
  have hleft : 0x2F ∉ (pattern "(").tail := by decide
  have hright : 0x2F ∉ (pattern ")").tail := by decide
  refine .source (by simp only [twins.locate_eq hleft, twins.locateLast_eq hright]) ?_
  refine (Overlooks.settle _ _).bind fun lparen hlparen => ?_
  refine (Overlooks.settle _ _).bind fun rparen hrparen =>
    .pure ⟨?_, alike_rightParen twins hrparen⟩
  have hsame := twins.locate_eq hleft "Parameters" nameEnd function.bodyStart
  refine Source.alike_of_locates ?_ ?_ hlparen
  · exact Source.locates_locate (by decide)
  · exact hsame ▸ Source.locates_locate (by decide)

/-- The list ends with its parenthesis, with its last parameter or where the function starts. -/
theorem overlooks_parameterNode {function : FunctionFragment} {parens : Option (Nat × Nat)}
    (h : function.Overlooks a b) (hparens : ∀ places ∈ parens, AlikeParens a b places) :
    Overlooks a b (parameterNode function parens) (Node.Whole a b) := by
  cases parens with
  | some places =>
    obtain ⟨hopening, hclosing⟩ := hparens places rfl
    refine (Overlooks.symbolAt hopening).bind fun lparen hleft => ?_
    refine (Overlooks.symbolAt hclosing).bind fun rparen hright => ?_
    refine (Overlooks.mergeSpans hleft.last hright.last).bind fun span hspan => ?_
    exact .pure (Node.whole_leaf hspan)
  | none =>
    unfold parameterNode
    dsimp only
    split
    · next first last hfirst hlast =>
      have hstart := (h.parameters first (List.mem_of_mem_head? hfirst)).start
      have hfinish := (h.parameters last (List.mem_of_getLast? hlast)).finish
      refine (Overlooks.spanOf twins (twins.alike hstart) (twins.alikeBefore hfinish)).bind ?_
      exact fun span hspan => .pure (Node.whole_leaf hspan)
    · exact .pure (Node.whole_leaf (twins.alike h.range.start))

/-- Where the parentheses are, both texts have them. -/
theorem overlooks_parameterList {function : FunctionFragment} (nameEnd : Nat)
    (h : function.Overlooks a b) :
    Overlooks a b (parameterList function nameEnd) (Node.Whole a b) := by
  unfold parameterList
  dsimp only
  split
  · exact (overlooks_arrowParens twins h.range).bind fun parens hparens =>
      overlooks_parameterNode twins h hparens
  · refine (overlooks_functionParens twins function nameEnd).bind fun parens hparens => ?_
    have hplaces : ∀ places ∈ some parens, AlikeParens a b places := by
      rintro places ⟨⟩
      exact hparens
    exact overlooks_parameterNode twins h hplaces

/-- The node starts at its ellipsis and ends with its name. -/
theorem passes_restElement {parameter : Ident} (h : parameter.range.InCode a) {ellipsis : Symbol}
    (hellipsis : ellipsis.Alike a b) : Passes a b (restElement parameter (some ellipsis)) := by
  have hstart : a.Alike b parameter.range.start := twins.alike h.start
  have hfinish : a.AlikeBefore b parameter.range.finish := twins.alikeBefore h.finish
  refine (Overlooks.spanOf twins hellipsis.start hfinish).bind fun span hspan => ?_
  refine (Overlooks.identifier twins _ hstart hfinish).bind fun name hname => ?_
  exact .attach ⟨hspan, fun _ => List.forall_mem_singleton.2 hname⟩

/-- No token may be missed, so the ellipsis is there. -/
theorem passes_restParameter {parameter : Ident} (h : parameter.range.InCode a) :
    Passes a b (restParameter parameter) := by
  have hellipsis : 0x2F ∉ (pattern "...").tail := by decide
  rw [restParameter]
  refine .source (by simp only [twins.locateLast_eq hellipsis]) ?_
  refine Overlooks.gapStart.bind fun gap _ => (Overlooks.settle? _).bind fun found hfound => ?_
  obtain ⟨offset, rfl, hlocated⟩ := hfound
  have hsame := twins.locateLast_eq hellipsis "RestElement" gap parameter.range.start
  refine (Overlooks.symbolAt (Source.alike_of_locates ?_ ?_ hlocated)).bind
    fun ellipsis hsymbol => passes_restElement twins h hsymbol
  · exact Source.locates_locateLast (by decide)
  · exact hsame ▸ Source.locates_locateLast (by decide)

/-- The parameter starts at its name and ends with its value. -/
theorem passes_defaultParameter {parameter : Ident} {value : Fragment}
    (hp : parameter.range.InCode a) (hv : value.Overlooks a b) :
    Passes a b (defaultParameter parameter value) := by
  refine (Overlooks.find twins (by decide) _ _ _).bind fun equal _ => ?_
  refine (Overlooks.spanOf twins (twins.alike hp.start) (twins.alikeBefore hv.range.finish)).bind ?_
  intro span hspan
  refine (Overlooks.name twins hp).bind fun name hname => ?_
  exact .enter (Node.whole_leaf hspan) ((Overlooks.attach hname).andThen hv.build)

/-- A parameter of no other kind is recovered by its name, with a warning that tells nothing of the
text. -/
theorem passes_parameter {function : FunctionFragment} {parameter : Ident}
    (hp : parameter.range.InCode a) (h : function.Overlooks a b) :
    Passes a b (Rule.parameter function parameter) := by
  have hname : Passes a b (do
      attach (← identifier parameter.range.start parameter.range.finish parameter.name)) :=
    (Overlooks.name twins hp).bind fun _ hname => .attach hname
  exact parameter_cases (fun _ => passes_restParameter twins hp)
    (fun value hvalue => passes_defaultParameter twins hp (h.defaults _ hvalue))
    ((Overlooks.note _).andThen hname) hname

/-- The list ends alike when it is opened, the parameters when they are attached. -/
theorem passes_parameters {function : FunctionFragment} (nameEnd : Nat)
    (h : function.Overlooks a b) : Passes a b (parameters function nameEnd) := by
  refine (overlooks_parameterList twins nameEnd h).bind fun list hlist => .enter hlist ?_
  exact Overlooks.forM fun parameter hmem => passes_parameter twins (h.parameters parameter hmem) h

/-- The keyword is spelled in both texts, so its first byte is the same. -/
theorem overlooks_functionKeyword (nameStart : Nat) :
    Overlooks a b (functionKeyword nameStart) (a.Alike b) := by
  have hword : Clear "function" := by decide
  refine .source (by simp only [twins.locateWordAtOrBefore_eq hword]) ?_
  refine Overlooks.gapStart.bind fun gap _ => (Overlooks.settle _ _).mono fun offset hfound => ?_
  have hfound' := hfound
  rw [twins.locateWordAtOrBefore_eq hword] at hfound'
  have ha : a.spells ((Token.keyword "function").at offset) = true :=
    Source.locates_locateWordAtOrBefore hword.1 offset hfound
  have hb : b.spells ((Token.keyword "function").at offset) = true :=
    Source.locates_locateWordAtOrBefore hword.1 offset hfound'
  exact (Source.alike_of_spells ha hb).start

/-- A function starts with its member, with its range, with its keyword or with its name. -/
theorem overlooks_functionStart {function : FunctionFragment} {member : Option MemberFragment}
    (h : function.Overlooks a b) (hm : ∀ part ∈ member, part.Overlooks a b) :
    Overlooks a b (functionStart function member) (a.Alike b) := by
  have hname := twins.alike h.name.start
  cases member with
  | some member =>
    refine .pure ?_
    rcases Nat.le_total member.range.start function.name.range.start with hle | hle
    · rw [Nat.min_eq_left hle]
      exact twins.alike (hm member rfl).range.start
    · rwa [Nat.min_eq_right hle]
  | none =>
    unfold functionStart
    dsimp only
    split
    · exact .pure (twins.alike h.range.start)
    · split
      · exact overlooks_functionKeyword twins _
      · exact .pure hname

/-- The place of a missing name is where the name would start, which is in code. -/
theorem passes_functionName {function : FunctionFragment} {member : Option MemberFragment}
    (h : function.Overlooks a b) (hm : ∀ part ∈ member, part.Overlooks a b) :
    Passes a b (functionName function member) := by
  cases member with
  | some member => exact passes_key twins (hm member rfl)
  | none =>
    unfold functionName
    dsimp only
    split
    · exact .pure trivial
    · split
      · exact .attach (Node.endsAlike_empty (twins.alike h.name.start))
      · exact (Overlooks.name twins h.name).bind fun _ hname => .attach hname

/-- A function ends with its range or with its body, whichever ends later. -/
theorem overlooks_functionNode {function : FunctionFragment} {member : Option MemberFragment}
    (h : function.Overlooks a b) (hm : ∀ part ∈ member, part.Overlooks a b) :
    Overlooks a b (functionNode function member) (Node.Whole a b) := by
  refine (overlooks_functionStart twins h hm).bind fun start hstart => ?_
  have hfinish := twins.alikeBefore (h.range.finish.max h.body.range.finish)
  refine (Overlooks.spanOf twins hstart hfinish).bind fun span hspan => ?_
  refine .within (Node.whole_leaf hspan) ((passes_functionName twins h hm).andThen ?_)
  exact (passes_parameters twins _ h).andThen h.body.build

/-! ## Exported declarations -/

/-- An export statement ends where its declaration does. -/
theorem overlooks_wrapExport {node : Node} (isDefault : Bool) (windowStart : Nat)
    (hn : node.EndsAlike a b) :
    Overlooks a b (wrapExport node isDefault windowStart) (Node.EndsAlike a b) := by
  refine (Overlooks.findLastWord? twins (by decide) _ _ _).bind fun keyword _ => ?_
  refine (Overlooks.spanBetween _ _).bind fun span hspan => .pure ⟨?_, fun _ => ?_⟩
  · subst hspan
    exact hn.last
  · exact List.forall_mem_singleton.2 (hn.withSemicolon false)

/-- The status is known from the metadata and not from the text. -/
theorem overlooks_exportIf (status : ExportStatus) {node : Node} (windowStart : Nat)
    (hn : node.EndsAlike a b) :
    Overlooks a b (exportIf status node windowStart) (Node.EndsAlike a b) := by
  unfold exportIf
  split
  · exact overlooks_wrapExport twins _ _ hn
  · exact .pure hn

/-- Whether the function is exported is decided by its name, which is no part of the text. -/
theorem passes_functionExpression {function : FunctionFragment} (h : function.Overlooks a b) :
    Passes a b (functionExpression function) := by
  refine (Overlooks.note _).andThen (Overlooks.gapStart.bind fun windowStart _ => ?_)
  refine (overlooks_functionNode twins h (by intro _ hnone; cases hnone)).bind fun node hnode => ?_
  dsimp only
  split
  · refine (Overlooks.exportStatus _).bind fun status _ => ?_
    refine (overlooks_exportIf twins status _ hnode.endsAlike).bind fun wrapped hwrapped => ?_
    exact (Overlooks.attach hwrapped).andThen .skipNextName
  · rw [pure_bind]
    refine (overlooks_exportIf twins .hidden _ hnode.endsAlike).bind fun wrapped hwrapped => ?_
    exact (Overlooks.attach hwrapped).andThen (.pure trivial)

/-! ## Members -/

/-- A pair ends with its range or with its value, both of them in code. -/
theorem passes_pair {member : MemberFragment} {value : Fragment} (hm : member.Overlooks a b)
    (hv : value.Overlooks a b) : Passes a b (pair member value) := by
  have hfinish := twins.alikeBefore (hm.range.finish.max hv.range.finish)
  refine (Overlooks.spanOf twins (twins.alike hm.range.start) hfinish).bind fun span hspan => ?_
  split
  · exact .enter (Node.whole_leaf hspan) hm.key.build
  · refine (Overlooks.find twins (by decide) _ _ _).bind fun colon _ => ?_
    exact .enter (Node.whole_leaf hspan) ((passes_key twins hm).andThen hv.build)

/-- The accessor starts with its member or with its word, which both texts spell. -/
theorem overlooks_accessorRange {member : MemberFragment} {function : FunctionFragment}
    (accessor : Accessor) (ownsKey : Bool) (hm : member.Overlooks a b)
    (hf : function.Overlooks a b) :
    Overlooks a b (accessorRange member function accessor ownsKey)
      fun range => a.Alike b range.start ∧ a.CodeBefore range.finish := by
  have hfinish := hf.range.finish.max hf.body.range.finish
  have hword : Clear accessor.keyword := by cases accessor <;> decide
  unfold accessorRange
  dsimp only
  split
  · exact .pure ⟨twins.alike hm.range.start, hfinish.max hm.range.finish⟩
  · refine .source (by simp only [twins.locateLastWord_eq hword]) ?_
    refine Overlooks.gapStart.bind fun gap _ => ?_
    refine (Overlooks.settle _ _).bind fun offset hfound => .pure ⟨?_, hfinish⟩
    have hfound' := hfound
    rw [twins.locateLastWord_eq hword] at hfound'
    have ha : a.spells ((Token.keyword accessor.keyword).at offset) = true :=
      Source.locates_locateLastWord hword.1 offset hfound
    have hb : b.spells ((Token.keyword accessor.keyword).at offset) = true :=
      Source.locates_locateLastWord hword.1 offset hfound'
    exact (Source.alike_of_spells ha hb).start

/-- The parts of an accessor are those of its function. -/
theorem passes_accessorParts {function : FunctionFragment} (accessor : Accessor)
    (h : function.Overlooks a b) : Passes a b (accessorParts function accessor) := by
  refine (overlooks_functionNode twins h (by intro _ hnone; cases hnone)).bind fun node hnode => ?_
  have hpart : ∀ part ∈ node.children.reverse, Passes a b (attach part) :=
    fun part hpart => .attach (hnode.children part (List.mem_reverse.1 hpart))
  have hbody : Passes a b (node.children.reverse.head?.toList.forM attach) := by
    refine Overlooks.forM fun part hmem => hpart part ?_
    exact List.mem_of_mem_head? (Option.mem_toList.1 hmem)
  dsimp only
  split
  · refine (Overlooks.forM fun part hmem => hpart part ?_).andThen hbody
    exact List.mem_of_mem_drop (List.mem_of_mem_head? (Option.mem_toList.1 hmem))
  · exact hbody

/-- The range of an accessor ends in code, though it is no range of the program. -/
theorem passes_accessor {member : MemberFragment} {function : FunctionFragment}
    (accessor : Accessor) (ownsKey : Bool) (hm : member.Overlooks a b)
    (hf : function.Overlooks a b) :
    Passes a b (Rule.accessor member function accessor ownsKey) := by
  rw [Rule.accessor]
  refine (overlooks_accessorRange twins accessor ownsKey hm hf).bind fun range hrange => ?_
  obtain ⟨hstart, hfinish⟩ := hrange
  refine (Overlooks.spanOf twins hstart (twins.alikeBefore hfinish)).bind fun span hspan => ?_
  refine .enter (Node.whole_leaf hspan) ?_
  dsimp only
  split
  · exact (passes_key twins hm).andThen (passes_accessorParts twins accessor hf)
  · refine (Overlooks.name twins hf.name).bind fun name hname => ?_
    exact (Overlooks.attach hname).andThen (passes_accessorParts twins accessor hf)

/-- Each accessor is recovered by itself, the first one with the key. -/
theorem passes_accessors {member : MemberFragment} (h : member.Overlooks a b) :
    Passes a b (accessors member) := by
  rw [accessors]
  refine Overlooks.forM fun written hwritten => passes_accessor twins _ _ h ?_
  have hmem := MemberFragment.mem_accessors (List.fst_mem_of_mem_zipIdx hwritten)
  exact hmem.elim (h.getter _) (h.setter _)

/-- Every kind of member has its ranges in code. -/
theorem passes_member {member : MemberFragment} (h : member.Overlooks a b) :
    Passes a b (Rule.member member) := by
  unfold Rule.member
  split
  · exact passes_accessors twins h
  · split
    · next function hvalue =>
      have hf : function.Overlooks a b := h.value (.method function) hvalue
      refine (overlooks_functionNode twins hf fun part hpart => ?_).bind fun _ hnode =>
        .attach hnode.endsAlike
      cases hpart
      exact h
    · next value hvalue => exact passes_pair twins h (h.value (.expression value) hvalue)
    · exact (Overlooks.rangeSpan twins _ _).bind fun span _ => .throw

/-! ## Classes -/

/-- The body ends with its brace, which is found at the end of the class. -/
theorem passes_classBody {definition : ClassFragment} (h : definition.Overlooks a b) :
    Passes a b (classBody definition) := by
  refine (Overlooks.find twins (by decide) _ _ _).bind fun lbrace hleft => ?_
  refine (Overlooks.findEndingAt twins (by decide) _ _ h.range.finish).bind fun rbrace hright => ?_
  refine (Overlooks.mergeSpans hleft.last hright.last).bind fun span hspan => ?_
  refine .enter (Node.whole_leaf hspan) ?_
  exact Overlooks.forM fun element hmem => h.elements element (List.mem_mergeSort.1 hmem)

/-- The class ends in code, and its name is put in front of the other parts. -/
theorem overlooks_classNode {definition : ClassFragment} {name : Option Ident}
    (h : definition.Overlooks a b) (hn : ∀ part ∈ name, part.range.InCode a) :
    Overlooks a b (classNode definition name) (Node.Whole a b) := by
  refine (Overlooks.note _).andThen ((Overlooks.spanIn twins h.range).bind fun span hspan => ?_)
  refine .within (Node.whole_leaf hspan) ?_
  refine (Fragment.passes_buildOptional h.heritage).andThen ((passes_classBody twins h).andThen ?_)
  cases name with
  | none => exact .pure trivial
  | some name =>
    refine (Overlooks.name twins (hn name rfl)).bind fun node hnode =>
      (Overlooks.attach hnode).andThen ?_
    refine Overlooks.getStack.bind fun stack _ => ?_
    split
    · exact .reorder _
    · exact .reorder _

/-- The name is looked for only if the class has one of its own. -/
theorem passes_classExpression {definition : ClassFragment} (h : definition.Overlooks a b) :
    Passes a b (classExpression definition) :=
  (overlooks_classNode twins h h.name).bind fun _ hnode => .attach hnode.endsAlike

/-! ## Bindings -/

/-- Value and name both have their ranges in code. -/
theorem passes_valueAndName {binding : BindingFragment} (h : binding.Overlooks a b) :
    Passes a b (valueAndName binding) :=
  (Fragment.passes_buildOptional h.init).andThen (passes_ident twins h.name)

/-- The place of a missing value is the end of the declarator, which is in code. -/
theorem passes_declarationParts {binding : BindingFragment} {span : Span}
    (h : binding.Overlooks a b) (hspan : a.Alike b span.last) :
    Passes a b (declarationParts binding span) := by
  refine (passes_valueAndName twins h).andThen (Overlooks.getStack.bind fun stack _ => ?_)
  split
  · exact .reorder _
  · exact .attach (Node.endsAlike_empty hspan)
  · exact .throw

/-- A declarator ends with its value, its range or its name, whichever ends last. -/
theorem overlooks_declaration {binding : BindingFragment} (h : binding.Overlooks a b) :
    Overlooks a b (declaration binding) (Node.Whole a b) := by
  have hnode : ∀ (equal : Option Symbol) (span : Span), a.Alike b span.last →
      Overlooks a b (within (.leaf (.declaration equal) span) (declarationParts binding span))
        (Node.Whole a b) := fun equal span hspan =>
    .within (Node.whole_leaf hspan) (passes_declarationParts twins h hspan)
  have hstart := twins.alike h.name.start
  unfold declaration
  dsimp only
  cases hinit : binding.init with
  | none =>
    have hfinish := twins.alikeBefore (h.range.finish.max h.name.finish)
    exact (Overlooks.spanOf twins hstart hfinish).bind fun span hspan => hnode none span hspan
  | some init =>
    have hvalue := (h.init init hinit).range.finish.max h.range.finish
    have hfinish := twins.alikeBefore (hvalue.max h.name.finish)
    refine (Overlooks.spanOf twins hstart hfinish).bind fun span hspan => ?_
    refine (Overlooks.find twins (by decide) _ _ _).bind fun equal _ => ?_
    exact hnode (some equal) span hspan

omit twins in
/-- The statement ends with its last declarator. -/
theorem overlooks_addDeclarator {declarator node : Node} (hd : declarator.EndsAlike a b)
    (hn : node.Whole a b) : Overlooks a b (addDeclarator declarator node) (Node.Whole a b) := by
  refine (Overlooks.mergeSpans hn.last hd.last).bind fun span hspan => .pure ⟨hspan, ?_⟩
  exact List.forall_mem_append.2 ⟨hn.children, List.forall_mem_singleton.2 hd⟩

omit twins in
/-- What declares variables is no return, so what it holds ends alike. -/
theorem kind_of_declaresVariables {node : Node} (h : node.declaresVariables = true) :
    node.kind ≠ .returnStatement := by
  intro hkind
  simp [Node.declaresVariables, hkind, NodeKind.isVar, NodeKind.isExport] at h

omit twins in
/-- What is extended declares variables, so its children end alike. -/
theorem overlooks_extendVariables {statement declarator : Node} (hs : statement.EndsAlike a b)
    (hvariables : statement.declaresVariables = true) (hd : declarator.EndsAlike a b) :
    Overlooks a b (extendVariables statement declarator) (Node.Whole a b) := by
  have hwhole := hs.whole (kind_of_declaresVariables hvariables)
  unfold extendVariables
  split
  · exact overlooks_addDeclarator hd hwhole
  · next hvar =>
    have hlast : ∀ child ∈ statement.lastChild?.toList,
        Overlooks a b (addDeclarator declarator child) (Node.Whole a b) := by
      intro child hchild
      have hchild := Option.mem_toList.1 hchild
      refine overlooks_addDeclarator hd ?_
      refine (hwhole.children child (List.mem_of_getLast? hchild)).whole ?_
      -- an export of variables, so its child declares them
      have hinner : child.kind.isVar = true := by
        simp only [Node.declaresVariables, hvar, Bool.false_or, Bool.and_eq_true] at hvariables
        have hany := hvariables.2
        rw [show statement.lastChild? = some child from hchild] at hany
        exact hany
      intro hkind
      rw [hkind] at hinner
      cases hinner
    refine (Overlooks.mergeSpans hwhole.last hd.last).bind fun span hspan => ?_
    refine (Overlooks.mapM hlast).bind fun exported hexported => .pure ⟨hspan, ?_⟩
    refine List.forall_mem_append.2 ⟨fun child hchild => ?_, fun child hchild => ?_⟩
    · exact hwhole.children child (List.dropLast_subset _ hchild)
    · exact (hexported child hchild).endsAlike

/-- The statement is looked at for its kind only, and the declarator ends in code. -/
theorem passes_continuedVariable {binding : BindingFragment} (h : binding.Overlooks a b) :
    Passes a b (continuedVariable binding) := by
  refine (overlooks_declaration twins h).bind fun declarator hdeclarator => ?_
  have hstray : Passes a b
      (throw (.shape "Var" .strayDeclarator (some declarator.span)) : Recover Unit) := .throw
  refine (Overlooks.terminates twins hdeclarator.last h.range.finish).bind fun terminated _ => ?_
  refine Overlooks.getStack.bind fun stack hstack => ?_
  split
  · next statement hlast =>
    split
    · next hvariables =>
      refine (overlooks_extendVariables (hstack.lastChild hlast) hvariables
        hdeclarator.endsAlike).bind fun extended hextended => ?_
      exact .replaceLast (hextended.endsAlike.withSemicolon terminated)
    · exact hstray
  · exact hstray

/-- The statement ends with its declarator, wherever its keyword is. -/
theorem passes_variableStatement {binding : BindingFragment} (keywordStart windowStart : Nat)
    (h : binding.Overlooks a b) :
    Passes a b (variableStatement binding keywordStart windowStart) := by
  refine (Overlooks.symbol _ _).bind fun keyword _ => ?_
  refine (overlooks_declaration twins h).bind fun declarator hdeclarator => ?_
  refine (Overlooks.spanBetween _ _).bind fun span hspan => ?_
  subst hspan
  have hnode : Node.EndsAlike a b (.branch (.var keyword)
      ⟨min keywordStart declarator.start, declarator.last⟩ [declarator]) :=
    ⟨hdeclarator.last, fun _ => List.forall_mem_singleton.2 hdeclarator.endsAlike⟩
  refine (Overlooks.terminates twins hnode.last h.range.finish).bind fun flag _ => ?_
  refine (Overlooks.exportStatus _).bind fun status _ => ?_
  refine (overlooks_exportIf twins status _ (hnode.withSemicolon flag)).bind fun _ hwrapped => ?_
  exact .attach hwrapped

omit twins in
/-- Every keyword of a declaration can be looked for as a word. -/
theorem clear_keyword (kind : BindingKind) : Clear kind.keyword := by
  cases kind <;> decide

/-- Whether there is a keyword in front of the name is the same in both texts. -/
theorem passes_ownKeyword {keyword : String} (h : Clear keyword) (windowStart nameStart : Nat) :
    Passes a b (ownKeyword keyword windowStart nameStart) := by
  refine .source (by simp only [twins.hasWordAt_eq h, twins.findLastWord_eq h]) ?_
  dsimp only
  split
  · exact .pure trivial
  · exact .pure trivial

/-- Both texts take the same way: a keyword, a statement to continue, or a fallback. -/
theorem passes_variableBinding {binding : BindingFragment} (h : binding.Overlooks a b) :
    Passes a b (variableBinding binding) := by
  have hword := clear_keyword binding.kind
  refine Overlooks.gapStart.bind fun windowStart _ => ?_
  refine (passes_ownKeyword twins hword _ _).bind fun found _ => ?_
  split
  · exact passes_variableStatement twins _ _ h
  · refine Overlooks.getStack.bind fun stack _ => ?_
    split
    · exact passes_continuedVariable twins h
    · refine .source (by simp only [twins.locateLastWord_eq hword]) ?_
      exact (Overlooks.settle _ _).bind fun offset _ => passes_variableStatement twins _ _ h

/-- No token may be missed, so the export statement starts at its keyword. -/
theorem passes_defaultExport {binding : BindingFragment} (h : binding.Overlooks a b) :
    Passes a b (defaultExport binding) := by
  unfold defaultExport
  split
  · exact (Overlooks.rangeSpan twins _ _).bind fun span _ => .throw
  · next init hinit =>
    have hvalue := h.init init hinit
    have hfinish := h.range.finish.max hvalue.range.finish
    refine Overlooks.gapStart.bind fun windowStart _ => ?_
    refine (Overlooks.findLastWord? twins (by decide) _ _ _).bind fun keyword hkeyword => ?_
    obtain ⟨symbol, rfl, hsymbol⟩ := hkeyword
    refine (Overlooks.spanOf twins hsymbol.start (twins.alikeBefore hfinish)).bind
      fun span hspan => ?_
    refine (Overlooks.within (Node.whole_leaf hspan) hvalue.build).bind fun node hnode => ?_
    refine Overlooks.takeSkip.bind fun _ _ => ?_
    refine (Overlooks.terminates twins hnode.last hfinish).bind fun flag _ => ?_
    exact .attach (hnode.endsAlike.withSemicolon flag)

/-- The class ends alike with an export statement around it and without. -/
theorem passes_exportedClass {definition : ClassFragment} (h : definition.Overlooks a b)
    (windowStart : Nat) (status : ExportStatus) {name : Option Ident}
    (hname : ∀ part ∈ name, part.range.InCode a) :
    Passes a b (exportedClass definition windowStart status name) := by
  refine (overlooks_classNode twins h hname).bind fun node hnode => ?_
  exact (overlooks_exportIf twins status _ hnode.endsAlike).bind fun _ hwrapped =>
    .attach hwrapped

/-- A default export has no name to be looked for. -/
theorem passes_classDeclaration {name : Ident} {definition : ClassFragment}
    (hn : name.range.InCode a) (h : definition.Overlooks a b) :
    Passes a b (classDeclaration name definition) := by
  rw [classDeclaration]
  refine (Overlooks.note _).andThen (Overlooks.gapStart.bind fun windowStart _ => ?_)
  split
  · exact passes_exportedClass twins h _ _ fun _ hnone => by cases hnone
  · refine (Overlooks.exportStatus _).bind fun status _ => passes_exportedClass twins h _ _ ?_
    rintro part ⟨⟩
    exact hn

/-- Which way a binding goes is known from the program. -/
theorem passes_binding {binding : BindingFragment} (h : binding.Overlooks a b) :
    Passes a b (Rule.binding binding) := by
  refine (Overlooks.note _).andThen ?_
  split
  · exact passes_defaultExport twins h
  · split
    · exact passes_valueAndName twins h
    · exact passes_variableBinding twins h

/-! ## Blocks -/

section Blocks

variable {statements : List StatementFragment}

/-- The block spans its braces, which are found outside of comments. -/
theorem passes_bracedBlock {range : Range} (hrange : range.InCode a)
    (h : ∀ statement ∈ statements, statement.Overlooks a b) :
    Passes a b (bracedBlock range statements) := by
  refine (Overlooks.rangeSpan twins _ _).bind fun _ _ => ?_
  refine (Overlooks.findAtOrAfter twins (by decide) _ hrange.start _).bind fun lbrace hleft => ?_
  refine (Overlooks.findEndingAt twins (by decide) _ _ hrange.finish).bind fun rbrace hright => ?_
  refine (Overlooks.mergeSpans hleft.last hright.last).bind fun span hspan => ?_
  refine .enter (Node.whole_leaf hspan) ?_
  exact Overlooks.forM fun statement hmem => (h statement hmem).build

/-- Only the last statement is recovered, and no token is looked for. -/
theorem passes_parameterBlock (range : Range)
    (h : ∀ statement ∈ statements, statement.Overlooks a b) :
    Passes a b (parameterBlock range statements) := by
  unfold parameterBlock
  split
  · next body hlast => exact (h body (List.mem_of_getLast? hlast)).build
  · exact (Overlooks.rangeSpan twins _ _).bind fun span _ => .throw

omit twins in
/-- A node that passes declares variables and is no return. -/
theorem overlooks_expectVar (node : Node) :
    Overlooks a b (expectVar node) fun _ => node.kind ≠ .returnStatement := by
  unfold expectVar
  split
  · exact .throw
  · next hvar =>
    refine .pure fun hkind => ?_
    rw [hkind] at hvar
    exact hvar rfl

omit twins in
/-- The statement ends with the last declarator that is appended. -/
theorem overlooks_appendDeclarators {combined node : Node} (hc : combined.Whole a b)
    (hn : node.EndsAlike a b) :
    Overlooks a b (appendDeclarators combined node) (Node.Whole a b) := by
  refine (overlooks_expectVar node).bind fun _ hkind => ?_
  have hchildren := hn.children hkind
  have hmerge : Overlooks a b
      (node.children.foldlM (fun span child => mergeSpans span child.span) combined.span)
      fun span => a.Alike b span.last :=
    .foldlM hc.last fun child hmem span hspan => .mergeSpans hspan (hchildren child hmem).last
  refine hmerge.bind fun span hspan => ?_
  exact .pure ⟨hspan, List.forall_mem_append.2 ⟨hc.children, hchildren⟩⟩

omit twins in
/-- The declarations of a header have been recovered before, and the text is not read again. -/
theorem overlooks_combineDeclarations {nodes : List Node} (h : ∀ node ∈ nodes, node.EndsAlike a b) :
    Overlooks a b (combineDeclarations nodes) fun combined =>
      ∀ node ∈ combined, node.EndsAlike a b := by
  cases nodes with
  | nil => exact .pure fun _ hnone => by cases hnone
  | cons first rest =>
    obtain ⟨hfirst, hrest⟩ := List.forall_mem_cons.1 h
    refine (overlooks_expectVar first).bind fun _ hkind => ?_
    refine Overlooks.bind (Overlooks.foldlM (hfirst.whole hkind) fun node hmem combined hcombined =>
      overlooks_appendDeclarators hcombined (hrest node hmem)) fun combined hcombined => .pure ?_
    rintro node ⟨⟩
    refine ⟨hcombined.last, fun _ child hchild => ?_⟩
    obtain ⟨other, hother, rfl⟩ := List.mem_map.1 hchild
    exact (hcombined.children other hother).withSemicolon false

/-- The declarations of a loop header are collected in a node that may end in a comment, in front of
the body. It is taken apart again. -/
theorem passes_declaringLoop {loop : LoopFragment} {declarations : List StatementFragment}
    (hl : loop.Overlooks a b) (h : ∀ statement ∈ declarations, statement.Overlooks a b) :
    Passes a b (declaringLoop loop declarations) := by
  refine (Overlooks.note _).andThen ((Overlooks.rangeSpan twins _ _).bind fun span _ => ?_)
  have hbuild : Passes a b (declarations.forM (·.build)) :=
    Overlooks.forM fun statement hmem => (h statement hmem).build
  refine (Overlooks.within_children (List.forall_mem_nil _) hbuild).bind ?_
  rintro collected ⟨hchildren, -⟩
  exact (overlooks_combineDeclarations hchildren).bind fun combined hcombined =>
    passes_forLoop twins hl hcombined

/-- The statements are split by their ranges, which are the same in both texts. -/
theorem passes_syntheticBlock (h : ∀ statement ∈ statements, statement.Overlooks a b) :
    Passes a b (syntheticBlock statements) := by
  unfold syntheticBlock
  split
  · exact Overlooks.forM fun statement hmem => (h statement hmem).build
  · next loop hloop =>
    obtain ⟨last, hlast, hlastLoop⟩ := Option.bind_eq_some_iff.1 hloop
    have hl : loop.Overlooks a b := (h last (List.mem_of_getLast? hlast)).loop loop hlastLoop
    have hrest : ∀ statement ∈ statements.dropLast, statement.Overlooks a b :=
      fun statement hmem => h statement (List.dropLast_subset _ hmem)
    refine (Overlooks.forM fun statement hmem => ?_).andThen ?_
    · exact (hrest statement (List.mem_of_mem_take hmem)).build
    · split
      · exact passes_forLoop twins hl fun _ hnone => by cases hnone
      · exact passes_declaringLoop twins hl fun statement hmem =>
          hrest statement (List.mem_of_mem_drop hmem)

/-- A block without braces has a range, but does not read it. -/
theorem passes_block {range : Range} (kind : BlockKind) (hrange : range.InCode a)
    (h : ∀ statement ∈ statements, statement.Overlooks a b) :
    Passes a b (block range kind statements) := by
  cases kind with
  | braced => exact passes_bracedBlock twins hrange h
  | parameter => exact passes_parameterBlock twins range h
  | synthetic => exact passes_syntheticBlock twins h

end Blocks

/-! ## Imports and exports from other modules -/

/-- A name may be anywhere if nothing needs to be known of its end. -/
theorem passes_identifier (start finish : Nat) (name : String) :
    Passes a b (identifier start finish name) :=
  (Overlooks.rangeSpan twins _ _).bind fun _ _ => (Overlooks.intern _).andThen (.pure trivial)

/-- The name is looked for as a word without a slash. -/
theorem passes_importedName {name : String} (h : Clear name) (start finish : Nat) :
    Passes a b (importedName name start finish) := by
  refine .source (by simp only [twins.locateWord_eq h]) ?_
  refine (Overlooks.settle? _).bind fun found hfound => ?_
  obtain ⟨offset, rfl, -⟩ := hfound
  exact (passes_identifier twins _ _ _).bind fun node _ => .pure trivial

/-- The names of an import are not empty and have no slash. -/
structure ClearNames (entry : ImportEntry) : Prop where
  importName : Clear entry.importName
  boundName : Clear entry.boundName

/-- The asterisk is searchable, for only its first byte could be a slash. -/
theorem passes_namespaceSpecifier {entry : ImportEntry} (h : ClearNames entry)
    (start finish : Nat) : Passes a b (namespaceSpecifier entry start finish) := by
  have hstar : 0x2F ∉ (pattern starName).tail := by decide
  refine .source (by simp only [twins.locate_eq hstar]) ?_
  refine (Overlooks.settle? _).bind fun found hfound => ?_
  obtain ⟨offset, rfl, -⟩ := hfound
  refine (Overlooks.symbol _ _).bind fun star _ => ?_
  refine (passes_importedName twins h.boundName _ _).bind fun name _ => ?_
  cases name with
  | none => exact .pure trivial
  | some name => exact (Overlooks.orFail _).passes.bind fun span _ => .pure trivial

/-- Both names of an import are clear, whichever of them is written. -/
theorem passes_nameSpecifier {entry : ImportEntry} (h : ClearNames entry) (start finish : Nat) :
    Passes a b (nameSpecifier entry start finish) := by
  have hwritten : Clear (if entry.isDefault then entry.boundName else entry.importName) := by
    split
    · exact h.boundName
    · exact h.importName
  have haround :
      ∀ (first : Node) (second : Option Node), Passes a b (specifierAround first second) :=
    fun first second => (Overlooks.orFail _).passes.bind fun span _ => .pure trivial
  rw [nameSpecifier]
  generalize (if entry.isDefault then entry.boundName else entry.importName) = written at hwritten
  refine (passes_importedName twins hwritten _ _).bind fun first _ => ?_
  cases first with
  | none => exact .pure trivial
  | some first =>
    dsimp only
    split
    · exact haround first none
    · exact (passes_importedName twins h.boundName _ _).bind fun second _ => haround first second

/-- Each search goes on behind the specifier before, at the same place in both texts. -/
theorem passes_specifiers (finish : Nat) {entries : List ImportEntry}
    (h : ∀ entry ∈ entries, ClearNames entry) (start : Nat) :
    Passes a b (specifiers finish entries start) := by
  induction entries generalizing start with
  | nil => exact .pure trivial
  | cons entry rest ih =>
    obtain ⟨hentry, hrest⟩ := List.forall_mem_cons.1 h
    have hmore : ∀ found : Option Node,
        Passes a b (specifiersBehind (specifiers finish rest) start found) := by
      intro found
      cases found with
      | none => exact ih hrest start
      | some specifier => exact (ih hrest _).bind fun nodes _ => .pure trivial
    rw [specifiers]
    split
    · exact (passes_namespaceSpecifier twins hentry _ _).bind fun found _ => hmore found
    · exact (passes_nameSpecifier twins hentry _ _).bind fun found _ => hmore found

/-- The range of a literal in the text. -/
def IsLiteral (source : Source) (range : Range) : Prop :=
  ∃ trivia ∈ source.trivia, trivia.kind = .literal ∧ range = ⟨trivia.start, trivia.finish⟩

/-- Literals are no comments, so the texts agree on them and in front of their ends. -/
theorem alike_literal {range : Range} (h : IsLiteral a range) :
    (∀ offset, range.span.start ≤ offset → offset ≤ range.span.last → a.Alike b offset) ∧
      a.AlikeBefore b range.finish := by
  obtain ⟨trivia, hmem, hkind, rfl⟩ := h
  have hinside := a.trivia_inside hmem
  have halike : ∀ offset, trivia.start ≤ offset → offset < trivia.finish → a.Alike b offset :=
    fun offset hstart hfinish => twins.alike (a.inComment_of_literal hmem hkind hstart hfinish)
  refine ⟨fun offset hstart hlast => halike offset hstart ?_, fun last hlast => ?_⟩
  · simp only [Range.span, Span.ofBounds] at hlast
    omega
  · have hlast : trivia.finish = last + 1 := hlast
    exact halike last (by omega) (by omega)

omit twins in
/-- Strings are looked for among the literals that the lexer has found. -/
theorem isLiteral_of_locateString {context content : String} {start finish : Nat} {range : Range}
    (h : a.locateString context content start finish = .ok range) : IsLiteral a range := by
  simp only [Source.locateString] at h
  split at h
  · next found hfound =>
    cases h
    obtain ⟨trivia, htrivia, rfl⟩ := Option.map_eq_some_iff.1 hfound
    have hpassed := Array.find?_some htrivia
    simp only [Source.isQuoted, Bool.and_eq_true, beq_iff_eq] at hpassed
    exact ⟨trivia, Array.mem_of_find?_eq_some htrivia, hpassed.2.1, rfl⟩
  · cases h

/-- The path is a literal that both texts have. -/
theorem overlooks_moduleStatement {keyword : String} (h : Clear keyword) (context request : String)
    (cursor : Nat) :
    Overlooks a b (moduleStatement keyword context request cursor)
      fun found => ∀ place ∈ found, IsLiteral a place.2 := by
  refine .source (by simp only [twins.locateString_eq, twins.locateLastWord_eq h, twins.size]) ?_
  refine (Overlooks.settle? _).bind fun found hfound => ?_
  obtain ⟨path, rfl, hpath⟩ := hfound
  refine (Overlooks.settle? _).bind fun found hfound => ?_
  obtain ⟨offset, rfl, -⟩ := hfound
  refine (Overlooks.symbol _ _).bind fun symbol _ => .pure ?_
  rintro place ⟨⟩
  exact isLiteral_of_locateString hpath

/-- The semicolon is looked for behind the path, which is no comment. -/
theorem passes_importStatement (request : String) {entries : List ImportEntry}
    (h : ∀ entry ∈ entries, ClearNames entry) (cursor : Nat) :
    Passes a b (importStatement request entries cursor) := by
  refine (overlooks_moduleStatement twins (by decide) _ _ _).bind fun place hplace => ?_
  cases place with
  | none => exact .pure trivial
  | some place =>
    obtain ⟨keyword, path⟩ := place
    obtain ⟨hinside, hfinish⟩ := alike_literal twins (hplace _ rfl)
    refine (passes_specifiers twins _ h _).bind fun names _ => ?_
    refine (Overlooks.symbolOver twins _ hinside).bind fun symbol _ => ?_
    exact (Overlooks.endsWithSemicolon twins hfinish).bind fun flag _ => .pure trivial

/-- Each search starts where the statement before ended, which is the same in both texts. -/
theorem passes_importGroups {groups : List (List ImportEntry)}
    (h : ∀ entries ∈ groups, ∀ entry ∈ entries, ClearNames entry) (cursor : Nat) :
    Passes a b (importGroups groups cursor) := by
  induction groups generalizing cursor with
  | nil => exact .pure trivial
  | cons entries rest ih =>
    obtain ⟨hentries, hrest⟩ := List.forall_mem_cons.1 h
    refine (passes_importStatement twins _ hentries _).bind fun found _ => ?_
    exact (ih hrest _).bind fun nodes _ => .pure trivial

/-- As for imports, without specifiers. -/
theorem passes_starExports (entries : List ExportEntry) (cursor : Nat) :
    Passes a b (starExports entries cursor) := by
  induction entries generalizing cursor with
  | nil => exact .pure trivial
  | cons entry rest ih =>
    unfold starExports
    split
    · exact ih cursor
    · refine (overlooks_moduleStatement twins (by decide) _ _ _).bind fun place hplace => ?_
      cases place with
      | none => exact ih cursor
      | some place =>
        obtain ⟨keyword, path⟩ := place
        obtain ⟨hinside, hfinish⟩ := alike_literal twins (hplace _ rfl)
        refine (Overlooks.symbolOver twins _ hinside).bind fun symbol _ => ?_
        refine (Overlooks.endsWithSemicolon twins hfinish).bind fun flag _ => ?_
        exact (ih _).bind fun nodes _ => .pure trivial

/-- The statements known from the metadata. Nothing is recovered after them, so it does not matter
where they end. -/
theorem outcome_moduleItems {info : ModuleInfo} (h : ∀ entry ∈ info.imports, ClearNames entry)
    (metadata : Option ModuleInfo) {session : Session} (hs : session.EndsAlike a b) :
    (moduleItems info).outcome ⟨a, metadata, true⟩ session =
      (moduleItems info).outcome ⟨b, metadata, true⟩ session := by
  have himports : Passes a b (imports info.imports) := by
    refine passes_importGroups twins (fun entries hentries entry hentry => h entry ?_) 0
    rw [← List.flatten_splitBy (fun a b : ImportEntry => a.request == b.request) info.imports]
    exact List.mem_flatten.2 ⟨entries, hentries, hentry⟩
  have hexports : Passes a b (starExports info.starExports 0) := passes_starExports twins _ 0
  refine outcome_bind_congr (himports.same metadata session hs) fun imported later hrun => ?_
  obtain ⟨hlater, -⟩ := himports.kept metadata session later imported hs hrun
  refine outcome_bind_congr (hexports.same metadata later hlater) fun exported last _ => ?_
  dsimp only
  split <;> rfl

end Rule

end Concretion
