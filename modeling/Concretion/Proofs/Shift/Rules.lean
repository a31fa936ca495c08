import Mathlib.Data.List.Forall2
import Concretion.Proofs.Shift.Steps

/-!
# Rules that move with the text

A rule moves with the text if the fragments that it puts together do. The order of the lemmas is
that of the rules.
-/

namespace Concretion

open Recover Text

/-! ## Places -/

namespace Range

/-- To move a range does not make it another one's equal. -/
theorem shift_inj {count : Nat} {range other : Range} :
    range.shift count = other.shift count ↔ range = other := by
  obtain ⟨start, finish⟩ := range
  obtain ⟨start', finish'⟩ := other
  simp only [shift, mk.injEq, Nat.add_left_cancel_iff]

variable (count : Nat) (range : Range) (place : Nat)

/-- A place at a distance behind the start of a range. -/
theorem start_shift_add :
    (range.shift count).start + place = count + (range.start + place) := Nat.add_assoc _ _ _

/-- A place that lies so far in front of the end of a range, but not in front of another one. -/
theorem max_shift (other : Range) :
    max ((range.shift count).finish - place) (other.shift count).finish =
      count + max (range.finish - place) other.finish := by
  simp only [shift]
  omega

/-- The later end of two ranges. -/
theorem finish_max_shift (other : Range) :
    max (range.shift count).finish (other.shift count).finish =
      count + max range.finish other.finish := Nat.add_max_add_left _ _ _

end Range

/-! ## Fragments -/

section Fragments

variable (indent : Indent)

/-- An expression, and the same one further to the right. -/
inductive Fragment.Moved : Fragment → Fragment → Prop where
  | intro {range : Range} {operator? : Option Operator} {build build' : Recover Unit}
      (h : Follows indent build build') :
      Moved ⟨range, operator?, build⟩ ⟨range.shift indent.width, operator?, build'⟩

/-- A block, and the same one further to the right. -/
inductive BlockFragment.Moved : BlockFragment → BlockFragment → Prop where
  | intro {range : Range} {build build' : Recover Unit} (h : Follows indent build build') :
      Moved ⟨range, build⟩ ⟨range.shift indent.width, build'⟩

/-- A default value of a parameter, and the same one further to the right. -/
def MovedDefault (value moved : String × Fragment) : Prop :=
  moved.1 = value.1 ∧ value.2.Moved indent moved.2

/-- A function, and the same one further to the right. -/
inductive FunctionFragment.Moved : FunctionFragment → FunctionFragment → Prop where
  | intro {range : Range} {name : Ident} {kind : FunctionKind} {parameters : List Ident}
      {body body' : BlockFragment} {bodyStart : Nat} {defaults defaults' : List (String × Fragment)}
      {isAnonymous isMethod isDeclared : Bool} (hbody : body.Moved indent body')
      (hdefaults : List.Forall₂ (MovedDefault indent) defaults defaults') :
      Moved ⟨range, name, kind, parameters, body, bodyStart, defaults, isAnonymous, isMethod,
          isDeclared⟩
        ⟨range.shift indent.width, name.shift indent.width, kind,
          parameters.map (·.shift indent.width), body', indent.width + bodyStart, defaults',
          isAnonymous, isMethod, isDeclared⟩

/-- The value of a member, and the same one further to the right. -/
inductive MemberValue.Moved : MemberValue → MemberValue → Prop where
  | method {function function' : FunctionFragment} (h : function.Moved indent function') :
      Moved (method function) (method function')
  | expression {value value' : Fragment} (h : value.Moved indent value') :
      Moved (expression value) (expression value')

/-- A member, and the same one further to the right. -/
inductive MemberFragment.Moved : MemberFragment → MemberFragment → Prop where
  | intro {range : Range} {key key' : Fragment} {value value' : Option MemberValue}
      {getter getter' setter setter' : Option FunctionFragment} {isStatic isComputed : Bool}
      (hkey : key.Moved indent key') (hvalue : Option.Rel (MemberValue.Moved indent) value value')
      (hgetter : Option.Rel (FunctionFragment.Moved indent) getter getter')
      (hsetter : Option.Rel (FunctionFragment.Moved indent) setter setter') :
      Moved ⟨range, key, value, getter, setter, isStatic, isComputed⟩
        ⟨range.shift indent.width, key', value', getter', setter', isStatic, isComputed⟩

/-- An element of a class, and the same one further to the right. -/
inductive ElementFragment.Moved : ElementFragment → ElementFragment → Prop where
  | intro {range : Range} {build build' : Recover Unit} (h : Follows indent build build') :
      Moved ⟨range, build⟩ ⟨range.shift indent.width, build'⟩

/-- A class, and the same one further to the right. -/
inductive ClassFragment.Moved : ClassFragment → ClassFragment → Prop where
  | intro {range : Range} {name : Option Ident} {heritage heritage' : Option Fragment}
      {elements elements' : List ElementFragment}
      (hheritage : Option.Rel (Fragment.Moved indent) heritage heritage')
      (helements : List.Forall₂ (ElementFragment.Moved indent) elements elements') :
      Moved ⟨range, name, heritage, elements⟩
        ⟨range.shift indent.width, name.map (·.shift indent.width), heritage', elements'⟩

/-- A binding, and the same one further to the right. -/
inductive BindingFragment.Moved : BindingFragment → BindingFragment → Prop where
  | intro {range : Range} {name : Ident} {init init' : Option Fragment} {kind : BindingKind}
      {isFunctionDeclaration : Bool} (hinit : Option.Rel (Fragment.Moved indent) init init') :
      Moved ⟨range, name, init, kind, isFunctionDeclaration⟩
        ⟨range.shift indent.width, name.shift indent.width, init', kind, isFunctionDeclaration⟩

/-- A loop, and the same one further to the right. -/
inductive LoopFragment.Moved : LoopFragment → LoopFragment → Prop where
  | intro {range : Range} {kind : LoopKind} {init init' test test' update update' : Option Fragment}
      {body body' : BlockFragment} (hinit : Option.Rel (Fragment.Moved indent) init init')
      (htest : Option.Rel (Fragment.Moved indent) test test')
      (hupdate : Option.Rel (Fragment.Moved indent) update update')
      (hbody : body.Moved indent body') :
      Moved ⟨range, kind, init, test, update, body⟩
        ⟨range.shift indent.width, kind, init', test', update', body'⟩

/-- A statement, and the same one further to the right. -/
inductive StatementFragment.Moved : StatementFragment → StatementFragment → Prop where
  | intro {range : Range} {isBinding : Bool} {loop? loop?' : Option LoopFragment}
      {build build' : Recover Unit} (hloop : Option.Rel (LoopFragment.Moved indent) loop? loop?')
      (hbuild : Follows indent build build') :
      Moved ⟨range, isBinding, loop?, build⟩
        ⟨range.shift indent.width, isBinding, loop?', build'⟩

end Fragments

variable {indent : Indent}

namespace Fragment

variable {operand operand' : Fragment}

/-- The recovery of an expression moves with it. -/
theorem follows_build (h : operand.Moved indent operand') :
    Follows indent operand.build operand'.build := by
  cases h
  assumption

/-- A part that is missing in one text is missing in the other. -/
theorem follows_buildOptional {fragment fragment' : Option Fragment}
    (h : Option.Rel (Fragment.Moved indent) fragment fragment') :
    Follows indent (buildOptional fragment) (buildOptional fragment') := by
  cases h with
  | none => exact .pure trivial
  | some h => exact follows_build h

/-- Whether an operand is grouped depends on the operators, which do not move. -/
theorem follows_buildBeside (h : operand.Moved indent operand') (outer : Operator)
    (side : Operator.Side) :
    Follows indent (operand.buildBeside outer side) (operand'.buildBeside outer side) := by
  obtain ⟨hbuild⟩ := h
  exact hbuild.andThen (.ite Iff.rfl (fun _ => Follows.groupLastChild) fun _ => .pure trivial)

/-- So it is with the object of an access. -/
theorem follows_buildObject (h : operand.Moved indent operand') :
    Follows indent operand.buildObject operand'.buildObject := by
  obtain ⟨hbuild⟩ := h
  exact hbuild.andThen (.ite Iff.rfl (fun _ => Follows.groupLastChild) fun _ => .pure trivial)

end Fragment

/-- The recovery of a block moves with it. -/
theorem BlockFragment.follows_build {body body' : BlockFragment} (h : body.Moved indent body') :
    Follows indent body.build body'.build := by
  cases h
  assumption

namespace Rule

/-! ## Identifiers and literals -/

/-- Whether a name is skipped is the same in both runs. -/
theorem follows_ident (name : Ident) :
    Follows indent (ident name) (ident (name.shift indent.width)) := by
  refine Shifts.takeSkip.bind fun skips => .ite Iff.rfl (fun _ => Follows.note _ _) fun _ => ?_
  exact (Shifts.identifier _ _ _).bind fun node => Follows.attach node

/-- The kind of the node has no place but that of its symbol. -/
theorem shifts_verbatim (range : Range) (token : TokenKind) (kind : Symbol → NodeKind)
    (hkind : ∀ symbol, (kind symbol).shift indent.width = kind (symbol.shift indent.width)) :
    Shifts indent (verbatim range token kind) (verbatim (range.shift indent.width) token kind)
      (Node.shift indent.width) := by
  refine (Shifts.rangeSpan _ _).bind fun span => (Shifts.symbolOver _ span).bind fun symbol => ?_
  refine .pure ?_
  rw [Node.shift_eq]
  exact congrArg (fun kind => Node.leaf kind _) (hkind symbol).symm

theorem shifts_numeral (span : Span) :
    Shifts indent (numeral span) (numeral (span.shift indent.width)) (Node.shift indent.width) :=
  (Shifts.symbolOver _ span).bind fun _ => .pure rfl

/-- Sign and digits are the same, for the slices are. -/
theorem shifts_number (range : Range) :
    Shifts indent (number range) (number (range.shift indent.width)) (Node.shift indent.width) := by
  rw [number, number]
  refine (Shifts.rangeSpan _ _).bind fun full => Tracks.source ?_
  have hslice : indent.moved.slice (range.shift indent.width).start
      (range.shift indent.width).finish = indent.source.slice range.start range.finish :=
    indent.slice_moved _ _
  rw [hslice]
  dsimp only
  generalize trimmed _ = written
  refine .ite Iff.rfl (fun _ => shifts_numeral full) fun hdigits => ?_
  have hpos := Text.width_pos fun hnil => hdigits (List.isEmpty_iff.2 hnil)
  have hstart : (range.shift indent.width).start + written.1 =
      indent.width + (range.start + written.1) := Nat.add_assoc _ _ _
  have hlast : indent.width + (range.start + written.1) + Text.width written.2 - 1 =
      indent.width + (range.start + written.1 + Text.width written.2 - 1) := by omega
  rw [hstart, hlast]
  exact (Shifts.spanBetween _ _).bind shifts_numeral

/-- What is shown in front of a string does not depend on its place. -/
theorem shifts_quoteShown (span : Span) (found : Option UInt8) :
    Shifts indent (quoteShown span found) (quoteShown (span.shift indent.width) found)
      fun quote => quote := by
  refine .ite Iff.rfl (fun _ => .pure rfl) fun _ => ?_
  exact .ite Iff.rfl (fun _ => (Follows.note _ _).andThen (.pure rfl)) fun _ => .pure rfl

/-- The opening quote stands in front of the range, but never in the blank space. -/
theorem shifts_string (range : Range) (value : String) :
    Shifts indent (string range value) (string (range.shift indent.width) value)
      (Node.shift indent.width) := by
  rw [string, string]
  refine Tracks.source ?_
  -- A range that starts at zero has no byte for the quote, and what a failing run moves to is not
  -- asked for.
  by_cases hzero : range.start = 0
  · rw [if_pos (beq_iff_eq.2 hzero)]
    exact .throw
  have hzero' : ¬ (range.shift indent.width).start = 0 := fun h =>
    hzero (Nat.eq_zero_of_add_eq_zero_left h)
  have hquote : (range.shift indent.width).start - 1 = indent.width + (range.start - 1) :=
    Nat.add_sub_assoc (Nat.pos_of_ne_zero hzero) _
  rw [if_neg (mt beq_iff_eq.1 hzero), if_neg (mt beq_iff_eq.1 hzero'), hquote, indent.byteAt_moved]
  refine (Shifts.rangeSpan _ _).bind fun span => (shifts_quoteShown _ _).bind fun quote => ?_
  exact (Follows.intern _ _).andThen (.pure rfl)

/-- Every kind of literal moves with its range. -/
theorem follows_literal (range : Range) (value : Literal) :
    Follows indent (literal range value) (literal (range.shift indent.width) value) := by
  have hattach : ∀ {build build' : Recover Node},
      Shifts indent build build' (Node.shift indent.width) →
      Follows indent (do attach (← build)) (do attach (← build')) :=
    fun h => h.bind fun node => Follows.attach node
  rcases value with _ | text | flag | _ | _
  · exact hattach (shifts_number range)
  · exact hattach (shifts_string range text)
  · cases flag
    · exact hattach (shifts_verbatim range _ _ fun _ => rfl)
    · exact hattach (shifts_verbatim range _ _ fun _ => rfl)
  · exact hattach (shifts_verbatim range _ _ fun _ => rfl)
  · exact hattach (shifts_verbatim range _ _ fun _ => rfl)

/-! ## Collections -/

/-- Where the last child ends, or else a given place. -/
theorem lastPlace_shift (stack : Stack) (place : Nat) :
    ((stack.shift indent.width).lastChild?.map Node.last).getD (indent.width + place) =
      indent.width + (stack.lastChild?.map Node.last).getD place := by
  rw [Stack.lastChild?_shift]
  cases stack.lastChild? with
  | none => rfl
  | some child => exact child.last_shift _

/-- A hole stands where the last child ends, which has moved, or behind the bracket. -/
theorem follows_element (hole : Nat) {fragment fragment' : Option Fragment}
    (h : Option.Rel (Fragment.Moved indent) fragment fragment') :
    Follows indent (element hole fragment) (element (indent.width + hole) fragment') := by
  cases h with
  | some h => exact Fragment.follows_build h
  | none =>
    refine Shifts.getStack.bind fun stack => ?_
    rw [lastPlace_shift]
    exact Follows.attach (.elision _)

/-- As many elements are expected as before. -/
theorem follows_array (range : Range) {elements elements' : List (Option Fragment)}
    (h : List.Forall₂ (Option.Rel (Fragment.Moved indent)) elements elements') :
    Follows indent (array range elements) (array (range.shift indent.width) elements') := by
  refine (Shifts.rangeSpan _ _).bind fun span => ?_
  refine (Shifts.findAtOrAfter _ _ _ _).bind fun lbracket => ?_
  refine (Shifts.findEndingAt _ _ _ _).bind fun rbracket => ?_
  refine Follows.enter (.leaf (.array lbracket rbracket) span) ?_
  refine (Follows.forM (h.imp fun _ _ => follows_element lbracket.span.start)).andThen ?_
  refine Shifts.getStack.bind fun stack => ?_
  dsimp only
  rw [stack.childCount_shift, h.length_eq]
  exact .ite Iff.rfl (fun _ => .throw) fun _ => .pure trivial

/-- The members move one by one. -/
theorem follows_object (range : Range) {members members' : List (Recover Unit)}
    (h : List.Forall₂ (Follows indent) members members') :
    Follows indent (object range members) (object (range.shift indent.width) members') := by
  refine (Shifts.rangeSpan _ _).bind fun span => ?_
  refine (Shifts.findAtOrAfter _ _ _ _).bind fun lbrace => ?_
  refine (Shifts.findEndingAt _ _ _ _).bind fun rbrace => ?_
  exact Follows.enter (.leaf (.object lbrace rbrace) span) (Follows.forM h)

/-! ## Operators -/

/-- The children of a node after a single call among them has been taken apart. -/
def flattened : List Node → List Node
  | [child] => if child.kind == .invoke then child.children else [child]
  | children => children

/-- What is flattened keeps all but its children. -/
theorem flattenInvoke_flattened (node : Node) :
    node.flattenInvoke = { node with children := flattened node.children } := by
  obtain ⟨kind, span, children, ownsSemicolon⟩ := node
  rcases children with _ | ⟨child, _ | ⟨second, rest⟩⟩
  · rfl
  · simp only [Node.flattenInvoke, flattened]
    split <;> rfl
  · rfl

/-- Whether there is a single call among the children does not depend on their places. -/
theorem flattened_shift (count : Nat) (children : List Node) :
    flattened (children.map (Node.shift count)) = (flattened children).map (Node.shift count) := by
  rcases children with _ | ⟨child, _ | ⟨second, rest⟩⟩
  · rfl
  · show (if (child.shift count).kind == .invoke then (child.shift count).children else
      [child.shift count]) = (if child.kind == .invoke then child.children else [child]).map _
    rw [child.kind_shift, NodeKind.isInvoke_shift, child.children_shift, apply_ite (List.map _)]
    rfl
  · rfl

/-- The children that are left are those that were left before, moved. -/
theorem follows_flattenInvoke :
    Follows indent (modifyStack (·.modifyCurrent Node.flattenInvoke))
      (modifyStack (·.modifyCurrent Node.flattenInvoke)) := by
  have hset : ∀ stack : Stack,
      stack.modifyCurrent Node.flattenInvoke = stack.setChildren (flattened stack.children) := by
    rintro ⟨root, _ | ⟨node, outer⟩⟩ <;>
      simp only [Stack.modifyCurrent, Stack.setChildren, flattenInvoke_flattened] <;> rfl
  refine Follows.setChildren fun stack => ⟨_, hset stack, ?_⟩
  rw [hset, Stack.children_shift, flattened_shift]

/-- The only place in the kind is that of the operator. -/
theorem unaryKind_shift (form : UnaryForm) (symbol : Symbol) :
    (form.nodeKind symbol).shift indent.width = form.nodeKind (symbol.shift indent.width) := by
  cases form <;> rfl

/-- So it is with binary operators. -/
theorem binaryKind_shift (form : BinaryForm) (symbol : Symbol) :
    (form.nodeKind symbol).shift indent.width = form.nodeKind (symbol.shift indent.width) := by
  cases form <;> rfl

/-- The operand is grouped or taken apart as before. -/
theorem follows_operandBelow (operator : Operator) (form : UnaryForm) {operand operand' : Fragment}
    (h : operand.Moved indent operand') :
    Follows indent (operandBelow operator form operand) (operandBelow operator form operand') := by
  refine (Fragment.follows_buildBeside h operator .right).andThen ?_
  exact .ite Iff.rfl (fun _ => follows_flattenInvoke) fun _ => .pure trivial

/-- The operator is looked for at the moved range, from the same end. -/
theorem follows_unary (range : Range) (operator : Operator) {operand operand' : Fragment}
    (h : operand.Moved indent operand') :
    Follows indent (unary range operator operand)
      (unary (range.shift indent.width) operator operand') := by
  rw [unary, unary]
  refine (Shifts.rangeSpan _ _).bind fun span => ?_
  cases operator.unaryForm with
  | none => exact .throw
  | some written =>
    obtain ⟨spelling, form⟩ := written
    have hnode : ∀ symbol : Symbol, Follows indent
        (enter (.leaf (form.nodeKind symbol) span) (operandBelow operator form operand))
        (enter (.leaf (form.nodeKind (symbol.shift indent.width)) (span.shift indent.width))
          (operandBelow operator form operand')) := fun symbol =>
      Follows.enterLeaf (unaryKind_shift form symbol) span (follows_operandBelow operator form h)
    obtain ⟨-⟩ := h
    refine .ite Iff.rfl (fun _ => ?_) fun _ => ?_
    · exact (Shifts.findEndingAt _ _ _ _).bind hnode
    · exact (Shifts.findAtOrAfter _ _ _ _).bind hnode

/-- Whether an operator is a word does not depend on its place. -/
theorem shifts_operatorBetween (spelling : String) (start finish : Nat) :
    Shifts indent (operatorBetween spelling start finish)
      (operatorBetween spelling (indent.width + start) (indent.width + finish))
      (Symbol.shift indent.width) :=
  .ite Iff.rfl (fun _ => Shifts.findWord _ _ _ _) fun _ => Shifts.find _ _ _ _

/-- The window of the operator lies between the operands, both of which have moved. -/
theorem follows_binary (range : Range) (operator : Operator) {left left' right right' : Fragment}
    (hl : left.Moved indent left') (hr : right.Moved indent right') :
    Follows indent (binary range operator left right)
      (binary (range.shift indent.width) operator left' right') := by
  refine (Shifts.rangeSpan _ _).bind fun span => ?_
  have hleft := Fragment.follows_buildBeside hl operator .left
  have hright := Fragment.follows_buildBeside hr operator .right
  obtain ⟨-⟩ := hl
  obtain ⟨-⟩ := hr
  cases operator.binaryForm with
  | none => exact .throw
  | some written =>
    obtain ⟨spelling, form⟩ := written
    refine (shifts_operatorBetween _ _ _).bind fun symbol => ?_
    exact Follows.enterLeaf (binaryKind_shift form symbol) span (hleft.andThen hright)

/-- Both windows lie between parts that have moved. -/
theorem follows_conditional (range : Range)
    {test test' consequent consequent' alternate alternate' : Fragment}
    (ht : test.Moved indent test') (hc : consequent.Moved indent consequent')
    (ha : alternate.Moved indent alternate') :
    Follows indent (conditional range test consequent alternate)
      (conditional (range.shift indent.width) test' consequent' alternate') := by
  have htest := Fragment.follows_buildBeside ht .conditional .left
  have hconsequent := Fragment.follows_buildBeside hc .assign .right
  have halternate := Fragment.follows_buildBeside ha .assign .right
  obtain ⟨-⟩ := ht
  obtain ⟨-⟩ := hc
  obtain ⟨-⟩ := ha
  refine (Shifts.rangeSpan _ _).bind fun span => ?_
  refine (Shifts.find _ _ _ _).bind fun question => ?_
  refine (Shifts.find _ _ _ _).bind fun colon => ?_
  refine Follows.enter (.leaf (.conditional question colon) span) ?_
  exact htest.andThen (hconsequent.andThen halternate)

/-! ## Calls and member access -/

/-- The list goes from the moved parenthesis to the moved end of the call. -/
theorem shifts_argumentParens (range : Range) (opening : Nat) :
    Shifts indent (argumentParens range opening)
      (argumentParens (range.shift indent.width) (indent.width + opening))
      (Option.map (Node.shift indent.width)) := by
  refine (Shifts.symbolAt _ _).bind fun lparen => ?_
  refine (Shifts.findEndingAt _ _ (lparen.span.last + 1) _).bind fun rparen => ?_
  exact (Shifts.mergeSpans _ _).bind fun span => .pure rfl

/-- A list without parentheses has none after the blank space either. -/
theorem shifts_argumentList (range : Range) (calleeEnd : Nat) {arguments arguments' : List Fragment}
    (h : List.Forall₂ (Fragment.Moved indent) arguments arguments') :
    Shifts indent (argumentList range calleeEnd arguments)
      (argumentList (range.shift indent.width) (indent.width + calleeEnd) arguments')
      (Option.map (Node.shift indent.width)) := by
  cases h with
  | nil =>
    rw [argumentList, argumentList]
    refine Tracks.source ?_
    have hfound : indent.moved.find "(" (indent.width + calleeEnd)
        (range.shift indent.width).finish =
        (indent.source.find "(" calleeEnd range.finish).map (indent.width + ·) :=
      indent.find_moved _ _ _
    rw [hfound]
    cases indent.source.find "(" calleeEnd range.finish with
    | none => exact .pure rfl
    | some opening => exact shifts_argumentParens range opening
  | cons hfirst _ =>
    obtain ⟨-⟩ := hfirst
    rw [argumentList, argumentList]
    refine Tracks.source ?_
    exact (Shifts.settle fun _ => Indent.locate_moved).bind (shifts_argumentParens range)

/-- The list is moved while it waits on the shelf. -/
theorem follows_call (range : Range) {callee callee' : Fragment}
    {arguments arguments' : List Fragment} (hc : callee.Moved indent callee')
    (ha : List.Forall₂ (Fragment.Moved indent) arguments arguments') :
    Follows indent (call range callee arguments)
      (call (range.shift indent.width) callee' arguments') := by
  have hobject := Fragment.follows_buildObject hc
  obtain ⟨-⟩ := hc
  refine (Shifts.rangeSpan _ _).bind fun span => ?_
  refine (shifts_argumentList _ _ ha).bind fun list => ?_
  refine Follows.enter (.leaf .invoke span) ?_
  cases list with
  | none => exact hobject
  | some list =>
    refine (Shifts.defer list).bind fun ticket => hobject.andThen ?_
    refine (Shifts.takeDeferred ticket).bind fun list => Follows.enter list ?_
    exact Follows.forM (ha.imp fun _ _ => Fragment.follows_build)

/-- The name is counted back from the end of the range, but not beyond the end of the object. -/
theorem follows_access (range : Range) {base base' : Fragment} (property : String)
    (h : base.Moved indent base') :
    Follows indent (access range base property)
      (access (range.shift indent.width) base' property) := by
  have hobject := Fragment.follows_buildObject h
  obtain ⟨-⟩ := h
  refine (Shifts.rangeSpan _ _).bind fun span => ?_
  dsimp only
  -- a name that is too long for its range does not begin in the blank space
  rw [Range.max_shift]
  refine (Shifts.find _ _ _ _).bind fun dot => ?_
  refine (Shifts.identifier _ _ _).bind fun name => ?_
  exact Follows.enter (.leaf (.getProperty dot) span) (hobject.andThen (Follows.attach name))

/-- The window of the bracket begins where the object ends. -/
theorem follows_index (range : Range) {base base' index index' : Fragment}
    (hb : base.Moved indent base') (hi : index.Moved indent index') :
    Follows indent (Rule.index range base index)
      (Rule.index (range.shift indent.width) base' index') := by
  have hobject := Fragment.follows_buildObject hb
  obtain ⟨-⟩ := hb
  obtain ⟨hbuild⟩ := hi
  refine (Shifts.rangeSpan _ _).bind fun span => ?_
  refine (Shifts.find _ _ _ _).bind fun lbracket => ?_
  refine (Shifts.findEndingAt _ _ _ _).bind fun rbracket => ?_
  exact Follows.enter (.leaf (.getElement lbracket rbracket) span) (hobject.andThen hbuild)

/-! ## Plain statements -/

/-- Whether there is a semicolon is the same, and it does not move the node. -/
theorem shifts_withSemicolon (node : Node) (finish : Nat) :
    Shifts indent (withSemicolon node finish)
      (withSemicolon (node.shift indent.width) (indent.width + finish))
      (Node.shift indent.width) :=
  (Shifts.terminates _ _).bind fun flag => .pure (node.withSemicolon_shift _ flag).symm

/-- The last child is the same one, moved. -/
theorem follows_expressionStatement {expression expression' : Fragment}
    (h : expression.Moved indent expression') :
    Follows indent (expressionStatement expression) (expressionStatement expression') := by
  obtain ⟨hbuild⟩ := h
  refine hbuild.andThen (Shifts.getStack.bind fun stack => ?_)
  rw [stack.lastChild?_shift]
  cases stack.lastChild? with
  | none => exact .pure trivial
  | some statement =>
    exact (shifts_withSemicolon statement _).bind fun statement => Follows.replaceLast statement

/-- The statement has a span and nothing else. -/
theorem follows_emptyStatement (range : Range) :
    Follows indent (emptyStatement range) (emptyStatement (range.shift indent.width)) := by
  refine (Shifts.rangeSpan _ _).bind fun span => ?_
  exact Follows.attach { Node.leaf .emptyStatement span with ownsSemicolon := true }

/-- The value moves below the statement. -/
theorem follows_throwStatement (range : Range) {value value' : Fragment}
    (h : value.Moved indent value') :
    Follows indent (throwStatement range value)
      (throwStatement (range.shift indent.width) value') := by
  refine (Shifts.rangeSpan _ _).bind fun span => ?_
  refine (Shifts.within (.leaf .throwStatement span) (Fragment.follows_build h)).bind fun node => ?_
  exact (shifts_withSemicolon node _).bind fun node => Follows.attach node

/-- The placeholder stands behind the keyword, but not behind the end of the statement. -/
theorem follows_returnStatement (range : Range) {value value' : Option Fragment}
    (isGenerated : Bool) (h : Option.Rel (Fragment.Moved indent) value value') :
    Follows indent (returnStatement range value isGenerated)
      (returnStatement (range.shift indent.width) value' isGenerated) := by
  refine .ite Iff.rfl (fun _ => Fragment.follows_buildOptional h) fun _ => ?_
  refine (Shifts.rangeSpan _ _).bind fun span => ?_
  have hbody : ∀ {body body' : Recover Unit}, Follows indent body body' → Follows indent
      (do
        let node ← within (.leaf .returnStatement span) body
        attach (← withSemicolon node range.finish))
      (do
        let node ← within (.leaf .returnStatement (span.shift indent.width)) body'
        attach (← withSemicolon node (indent.width + range.finish))) := by
    intro body body' hbody
    refine (Shifts.within (.leaf .returnStatement span) hbody).bind fun node => ?_
    exact (shifts_withSemicolon node _).bind fun node => Follows.attach node
  cases h with
  | some h => exact hbody (Fragment.follows_build h)
  | none =>
    refine hbody ?_
    rw [Range.start_shift_add]
    have hplace : min (indent.width + (range.start + "return".utf8ByteSize))
        (span.shift indent.width).last =
          indent.width + min (range.start + "return".utf8ByteSize) span.last :=
      Nat.add_min_add_left _ _ _
    rw [hplace]
    exact Follows.attach (.empty _)

/-- The window of the label begins behind the keyword. -/
theorem shifts_jumpLabel (range : Range) (keyword label : String) :
    Shifts indent (jumpLabel range keyword label)
      (jumpLabel (range.shift indent.width) keyword label) (Symbol.shift indent.width) := by
  refine Tracks.source ?_
  rw [Range.start_shift_add]
  exact (Shifts.settle fun _ => Indent.locateWord_moved).bind fun offset => Shifts.symbolAt _ offset

/-- The kind of the jump has no place but that of its label. -/
theorem follows_jump (range : Range) (kind : JumpKind) (label : Option String) :
    Follows indent (jump range kind label) (jump (range.shift indent.width) kind label) := by
  refine (Shifts.rangeSpan _ _).bind fun span => ?_
  have hlabel : Shifts indent (label.mapM (jumpLabel range kind.keyword))
      (label.mapM (jumpLabel (range.shift indent.width) kind.keyword))
      (Option.map (Symbol.shift indent.width)) := by
    cases label with
    | none => exact .pure rfl
    | some label => exact (shifts_jumpLabel _ _ _).bind fun symbol => .pure rfl
  refine hlabel.bind fun label => (Shifts.endsWithSemicolon _).bind fun flag => ?_
  cases kind with
  | «break» =>
    exact Follows.attach { Node.leaf (.breakStatement label) span with ownsSemicolon := flag }
  | «continue» =>
    exact Follows.attach { Node.leaf (.continueStatement label) span with ownsSemicolon := flag }

/-- The end of the label is counted from the start of the range. -/
theorem follows_labelled (range : Range) (label : String) {body body' : BlockFragment}
    (h : body.Moved indent body') :
    Follows indent (labelled range label body)
      (labelled (range.shift indent.width) label body') := by
  obtain ⟨hbuild⟩ := h
  refine (Shifts.rangeSpan _ _).bind fun span => ?_
  dsimp only
  rw [Range.start_shift_add]
  refine (Shifts.find _ _ _ _).bind fun colon => ?_
  refine (Shifts.identifier _ _ _).bind fun name => ?_
  exact Follows.enter (.leaf (.labelled colon) span) ((Follows.attach name).andThen hbuild)

/-! ## Branches and simple loops -/

/-- The place of a missing branch is where the last child ends. -/
theorem follows_ifElse (range : Range) {test test' : Fragment} {pass pass' : BlockFragment}
    {fail fail' : Option BlockFragment} (ht : test.Moved indent test')
    (hp : pass.Moved indent pass') (hf : Option.Rel (BlockFragment.Moved indent) fail fail') :
    Follows indent (ifElse range test pass fail)
      (ifElse (range.shift indent.width) test' pass' fail') := by
  obtain ⟨htest⟩ := ht
  obtain ⟨hpass⟩ := hp
  refine (Shifts.rangeSpan _ _).bind fun span => ?_
  rw [Range.start_shift_add]
  refine (Shifts.find _ _ _ _).bind fun lparen => ?_
  refine (Shifts.find _ _ _ _).bind fun rparen => ?_
  refine Follows.enter (.leaf (.ifElse lparen rparen) span) (htest.andThen (hpass.andThen ?_))
  cases hf with
  | some h => exact (BlockFragment.follows_build h).andThen (Follows.expectChildren 3)
  | none =>
    refine Shifts.getStack.bind fun stack => ?_
    have hplace : ((stack.shift indent.width).lastChild?.map Node.last).getD
        (span.shift indent.width).last =
          indent.width + (stack.lastChild?.map Node.last).getD span.last :=
      lastPlace_shift stack span.last
    dsimp only
    rw [hplace]
    exact (Follows.attach (.empty _)).andThen (Follows.expectChildren 3)

/-- A clause of a `switch` statement, and the same one further to the right. -/
def MovedCase (indent : Indent) (clause moved : Range × Recover Unit) : Prop :=
  moved.1 = clause.1.shift indent.width ∧ Follows indent clause.2 moved.2

/-- The clauses begin with the first one, or where the statement ends. -/
theorem follows_switch (range : Range) {subject subject' : Fragment}
    {cases cases' : List (Range × Recover Unit)} (hs : subject.Moved indent subject')
    (hc : List.Forall₂ (MovedCase indent) cases cases') :
    Follows indent (switch range subject cases)
      (switch (range.shift indent.width) subject' cases') := by
  obtain ⟨hsubject⟩ := hs
  have hfirst : (cases'.head?.map (·.1.start)).getD (range.shift indent.width).finish =
      indent.width + (cases.head?.map (·.1.start)).getD range.finish := by
    cases hc with
    | nil => rfl
    | cons h _ => exact congrArg Range.start h.1
  refine (Shifts.rangeSpan _ _).bind fun span => ?_
  dsimp only
  rw [Range.start_shift_add, hfirst]
  refine (Shifts.find _ _ _ _).bind fun lparen => ?_
  refine (Shifts.find _ _ _ _).bind fun rparen => ?_
  refine (Shifts.find _ _ (rparen.span.last + 1) _).bind fun lbrace => ?_
  refine (Shifts.findEndingAt _ _ (lbrace.span.last + 1) _).bind fun rbrace => ?_
  refine Follows.enter (.leaf (.switch lparen rparen lbrace rbrace) span) (hsubject.andThen ?_)
  exact Follows.forM (hc.imp fun _ _ h => h.2)

/-- The recovery of a statement moves with it. -/
theorem StatementFragment.follows_build {statement statement' : StatementFragment}
    (h : statement.Moved indent statement') : Follows indent statement.build statement'.build := by
  cases h
  assumption

/-- The statements move one by one. -/
theorem follows_statements {statements statements' : List StatementFragment}
    (h : List.Forall₂ (StatementFragment.Moved indent) statements statements') :
    Follows indent (statements.forM (·.build)) (statements'.forM (·.build)) :=
  Follows.forM (h.imp fun _ _ => StatementFragment.follows_build)

/-- The span of the clause is merged with that of its colon, and both have moved. -/
theorem follows_caseNode (range : Range) {test test' : Option Fragment}
    {statements statements' : List StatementFragment}
    (ht : Option.Rel (Fragment.Moved indent) test test')
    (hs : List.Forall₂ (StatementFragment.Moved indent) statements statements')
    (kind : NodeKind) (colon : Symbol) :
    Follows indent (caseNode ⟨range, test, statements⟩ kind colon)
      (caseNode ⟨range.shift indent.width, test', statements'⟩ (kind.shift indent.width)
        (colon.shift indent.width)) := by
  refine (Shifts.rangeSpan _ _).bind fun part => (Shifts.mergeSpans _ _).bind fun span => ?_
  refine Follows.enter (.leaf kind span) ?_
  exact (Fragment.follows_buildOptional ht).andThen (follows_statements hs)

/-- The window of the colon ends with the first statement, or with the clause. -/
theorem follows_switchCase (range : Range) {test test' : Option Fragment}
    {statements statements' : List StatementFragment}
    (ht : Option.Rel (Fragment.Moved indent) test test')
    (hs : List.Forall₂ (StatementFragment.Moved indent) statements statements') :
    Follows indent (switchCase ⟨range, test, statements⟩)
      (switchCase ⟨range.shift indent.width, test', statements'⟩) := by
  have hbody : (statements'.head?.map (·.range.start)).getD (range.shift indent.width).finish =
      indent.width + (statements.head?.map (·.range.start)).getD range.finish := by
    cases hs with
    | nil => rfl
    | cons h _ =>
      cases h
      rfl
  have hnode := follows_caseNode range ht hs
  rw [switchCase, switchCase]
  dsimp only
  rw [hbody]
  cases ht with
  | none =>
    rw [Range.start_shift_add]
    exact (Shifts.find _ _ _ _).bind fun colon => hnode (.defaultClause colon) colon
  | some h =>
    obtain ⟨-⟩ := h
    exact (Shifts.find _ _ _ _).bind fun colon => hnode (.caseClause colon) colon

/-- The window of the parenthesis begins behind the keyword, counted from the start. -/
theorem follows_whileLoop (range : Range) {test test' : Fragment} {body body' : BlockFragment}
    (ht : test.Moved indent test') (hb : body.Moved indent body') :
    Follows indent (whileLoop range test body)
      (whileLoop (range.shift indent.width) test' body') := by
  obtain ⟨htest⟩ := ht
  obtain ⟨hbody⟩ := hb
  refine (Shifts.rangeSpan _ _).bind fun span => ?_
  rw [Range.start_shift_add]
  refine (Shifts.find _ _ _ _).bind fun lparen => ?_
  refine (Shifts.find _ _ _ _).bind fun rparen => ?_
  exact Follows.enter (.leaf (.whileLoop lparen rparen) span) (htest.andThen hbody)

/-- The semicolon behind the loop is looked for at its moved end. -/
theorem follows_doLoop (range : Range) {test test' : Fragment} {body body' : BlockFragment}
    (ht : test.Moved indent test') (hb : body.Moved indent body') :
    Follows indent (doLoop range test body) (doLoop (range.shift indent.width) test' body') := by
  obtain ⟨htest⟩ := ht
  obtain ⟨hbody⟩ := hb
  refine (Shifts.rangeSpan _ _).bind fun span => ?_
  refine (Shifts.find _ _ _ _).bind fun lparen => ?_
  refine (Shifts.find _ _ _ _).bind fun rparen => ?_
  refine (Shifts.within (.leaf (.doLoop lparen rparen) span) (hbody.andThen htest)).bind ?_
  refine fun node => (Shifts.endsWithSemicolon _).bind fun flag => ?_
  rw [← node.withSemicolon_shift]
  exact Follows.attach _

/-- As for the loop, with a keyword of its own. -/
theorem follows_withScope (range : Range) {subject subject' : Fragment} {body body' : BlockFragment}
    (hs : subject.Moved indent subject') (hb : body.Moved indent body') :
    Follows indent (withScope range subject body)
      (withScope (range.shift indent.width) subject' body') := by
  obtain ⟨hsubject⟩ := hs
  obtain ⟨hbody⟩ := hb
  refine (Shifts.rangeSpan _ _).bind fun span => ?_
  rw [Range.start_shift_add]
  refine (Shifts.find _ _ _ _).bind fun lparen => ?_
  refine (Shifts.find _ _ _ _).bind fun rparen => ?_
  exact Follows.enter (.leaf (.withScope lparen rparen) span) (hsubject.andThen hbody)

/-! ## `try` statements -/

/-- The name of the exception moves like any other. -/
theorem follows_catchClause (range : Range) (exception : Ident) {body body' : BlockFragment}
    (h : body.Moved indent body') :
    Follows indent (catchClause range exception body)
      (catchClause (range.shift indent.width) (exception.shift indent.width) body') := by
  obtain ⟨hbody⟩ := h
  refine (Shifts.rangeSpan _ _).bind fun span => ?_
  exact Follows.enter (.leaf .catchClause span) ((follows_ident exception).andThen hbody)

/-- The window of the keyword begins where the later of the two children in front ends. -/
theorem follows_finallyClause (finallyStart : Nat) :
    Follows indent (finallyClause finallyStart) (finallyClause (indent.width + finallyStart)) := by
  refine Shifts.getStack.bind fun stack => ?_
  rw [stack.children_shift]
  rcases stack.children with
    _ | ⟨body, _ | ⟨handler, _ | ⟨block, _ | ⟨fourth, rest⟩⟩⟩⟩
  · exact Shifts.getStack.bind fun _ => .throw
  · exact Shifts.getStack.bind fun _ => .throw
  · exact Shifts.getStack.bind fun _ => .throw
  · have hstart : max (body.shift indent.width).last (handler.shift indent.width).last + 1 =
        indent.width + (max body.last handler.last + 1) := by
      rw [body.last_shift, handler.last_shift, Nat.add_max_add_left]
      rfl
    simp only [List.map_cons, List.map_nil]
    rw [hstart, block.span_shift]
    refine (Shifts.findWord _ _ _ _).bind fun keyword => ?_
    refine (Shifts.mergeSpans _ _).bind fun span => ?_
    exact Follows.wrapChild 2 (.leaf (.finallyClause keyword) span)
  · exact Shifts.getStack.bind fun _ => .throw

/-- There is a finalizer in both runs or in none. -/
theorem follows_finallyLast {finalizer finalizer' : Option BlockFragment}
    (h : Option.Rel (BlockFragment.Moved indent) finalizer finalizer') :
    Follows indent (finallyLast finalizer) (finallyLast finalizer') := by
  cases h with
  | none => exact .pure trivial
  | some h =>
    obtain ⟨-⟩ := h
    exact follows_finallyClause _

/-- The place of a missing finalizer has moved. -/
theorem follows_finallyBlock {finalizer finalizer' : Option BlockFragment} (last : Nat)
    (h : Option.Rel (BlockFragment.Moved indent) finalizer finalizer') :
    Follows indent (finallyBlock finalizer last)
      (finallyBlock finalizer' (indent.width + last)) := by
  cases h with
  | none => exact Follows.attach (.empty last)
  | some h => exact BlockFragment.follows_build h

/-- The parts are counted and put in order as before. -/
theorem follows_tryEnd {finalizer finalizer' : Option BlockFragment}
    (h : Option.Rel (BlockFragment.Moved indent) finalizer finalizer') :
    Follows indent (tryEnd finalizer) (tryEnd finalizer') :=
  (Follows.expectChildren 3).andThen ((Follows.reorder _).andThen (follows_finallyLast h))

/-- A handler that is missing stands where the last child ends. -/
theorem follows_tryParts {body body' : BlockFragment} {catches catches' : List (Recover Unit)}
    {finalizer finalizer' : Option BlockFragment} (hb : body.Moved indent body')
    (hc : List.Forall₂ (Follows indent) catches catches')
    (hf : Option.Rel (BlockFragment.Moved indent) finalizer finalizer') (last : Nat) :
    Follows indent (tryParts body catches finalizer last)
      (tryParts body' catches' finalizer' (indent.width + last)) := by
  have hempty : catches'.isEmpty = catches.isEmpty := by
    cases hc <;> rfl
  refine (follows_finallyBlock last hf).andThen ?_
  refine (BlockFragment.follows_build hb).andThen ((Follows.forM hc).andThen ?_)
  refine .ite (by rw [hempty]) (fun _ => ?_) fun _ => follows_tryEnd hf
  refine Shifts.getStack.bind fun stack => ?_
  have hplace : ((stack.shift indent.width).lastChild?.map Node.last).getD (indent.width + last) =
      indent.width + (stack.lastChild?.map Node.last).getD last := lastPlace_shift stack last
  rw [hplace]
  exact (Follows.attach (.empty _)).andThen (follows_tryEnd hf)

/-- The number of handlers is the same. -/
theorem follows_tryCatch (range : Range) {body body' : BlockFragment}
    {catches catches' : List (Recover Unit)} {finalizer finalizer' : Option BlockFragment}
    (hb : body.Moved indent body') (hc : List.Forall₂ (Follows indent) catches catches')
    (hf : Option.Rel (BlockFragment.Moved indent) finalizer finalizer') :
    Follows indent (tryCatch range body catches finalizer)
      (tryCatch (range.shift indent.width) body' catches' finalizer') := by
  rw [tryCatch, tryCatch]
  refine (Follows.note _ _).andThen ((Shifts.rangeSpan _ _).bind fun span => ?_)
  refine .ite (by rw [hc.length_eq]) (fun _ => .throw) fun _ => ?_
  exact Follows.enter (.leaf .tryCatch span) (follows_tryParts hb hc hf span.last)

/-! ## `for` loops -/

/-- The placeholder has moved like the symbol that it stands at. -/
theorem follows_clause (placeholder : Nat) {fragment fragment' : Option Fragment}
    (h : Option.Rel (Fragment.Moved indent) fragment fragment') :
    Follows indent (clause fragment placeholder)
      (clause fragment' (indent.width + placeholder)) := by
  cases h with
  | none => exact Follows.attach (.empty placeholder)
  | some h => exact Fragment.follows_build h

/-- Declarations that are moved into the header have moved with the text before. -/
theorem follows_firstClause (declaration : Option Node) (placeholder : Nat)
    {init init' : Option Fragment} (h : Option.Rel (Fragment.Moved indent) init init') :
    Follows indent (firstClause declaration init placeholder)
      (firstClause (declaration.map (·.shift indent.width)) init'
        (indent.width + placeholder)) := by
  cases declaration with
  | none => exact follows_clause placeholder h
  | some declaration => exact Follows.attach declaration

/-- Whether the body left any node is seen from the number of children. -/
theorem follows_loopBody {body body' : BlockFragment} (h : body.Moved indent body') :
    Follows indent (loopBody body) (loopBody body') := by
  obtain ⟨hbuild⟩ := h
  refine Shifts.getStack.bind fun stack => hbuild.andThen (Shifts.getStack.bind fun later => ?_)
  refine .ite (by rw [stack.childCount_shift, later.childCount_shift]) (fun _ => ?_)
    fun _ => .pure trivial
  refine (Shifts.rangeSpan _ _).bind fun span => ?_
  exact Follows.attach (.leaf (.statements none none) span)

section Places

variable {fragment fragment' : Option Fragment}
  (h : Option.Rel (Fragment.Moved indent) fragment fragment')

include h

/-- The start of an optional part. -/
theorem startOf?_moved : startOf? fragment' = (startOf? fragment).map (indent.width + ·) := by
  cases h with
  | none => rfl
  | some h =>
    cases h
    rfl

/-- The end of an optional part. -/
theorem finishOf?_moved : finishOf? fragment' = (finishOf? fragment).map (indent.width + ·) := by
  cases h with
  | none => rfl
  | some h =>
    cases h
    rfl

end Places

/-- A place that need not be there, and another one in its stead. -/
theorem getD_moved (place : Option Nat) (otherwise : Nat) :
    (place.map (indent.width + ·)).getD (indent.width + otherwise) =
      indent.width + place.getD otherwise := by
  cases place <;> rfl

/-- The end of a clause, or else of the symbol in front of it. -/
theorem getD_last_moved (place : Option Nat) (symbol : Symbol) :
    (place.map (indent.width + ·)).getD ((symbol.shift indent.width).span.last + 1) =
      indent.width + place.getD (symbol.span.last + 1) := by
  cases place <;> rfl

/-- Each window begins with the part in front of it, or else behind the last symbol. -/
theorem follows_classicLoop {loop loop' : LoopFragment} (h : loop.Moved indent loop')
    (declaration : Option Node) (span : Span) (lparen : Symbol) (initEnd : Nat) :
    Follows indent (classicLoop loop declaration span lparen initEnd)
      (classicLoop loop' (declaration.map (·.shift indent.width)) (span.shift indent.width)
        (lparen.shift indent.width) (indent.width + initEnd)) := by
  obtain ⟨hinit, htest, hupdate, hbody⟩ := h
  have hloopBody := follows_loopBody hbody
  obtain ⟨-⟩ := hbody
  unfold classicLoop
  simp only [startOf?_moved htest, startOf?_moved hupdate, finishOf?_moved htest,
    finishOf?_moved hupdate, ← Option.map_or, Range.shift, getD_moved]
  refine (Shifts.find _ _ _ _).bind fun semi1 => ?_
  rw [getD_last_moved]
  refine (Shifts.find _ _ _ _).bind fun semi2 => ?_
  rw [getD_last_moved]
  refine (Shifts.findLast _ _ _ _).bind fun rparen => ?_
  refine Follows.enter (.leaf (.forLoop lparen semi1 semi2 rparen) span) ?_
  refine (follows_firstClause declaration _ hinit).andThen ?_
  refine (follows_clause _ htest).andThen ((follows_clause _ hupdate).andThen ?_)
  exact hloopBody.andThen (Follows.expectChildren 4)

/-- The windows are those around the keyword. -/
theorem follows_rangingLoop {loop loop' : LoopFragment} (h : loop.Moved indent loop')
    (declaration : Option Node) (span : Span) (lparen : Symbol) (initEnd : Nat) :
    Follows indent (rangingLoop loop declaration span lparen initEnd)
      (rangingLoop loop' (declaration.map (·.shift indent.width)) (span.shift indent.width)
        (lparen.shift indent.width) (indent.width + initEnd)) := by
  obtain ⟨hinit, htest, hupdate, hbody⟩ := h
  have hloopBody := follows_loopBody hbody
  obtain ⟨-⟩ := hbody
  unfold rangingLoop
  simp only [startOf?_moved hupdate, finishOf?_moved hupdate, Range.shift, getD_moved]
  refine (Shifts.findWord _ _ _ _).bind fun keyword => ?_
  rw [getD_last_moved]
  refine (Shifts.findLast _ _ _ _).bind fun rparen => ?_
  refine Follows.enterLeaf ?_ span ((follows_firstClause declaration _ hinit).andThen ?_)
  · split <;> rfl
  · exact (follows_clause _ hupdate).andThen (hloopBody.andThen (Follows.expectChildren 3))

/-- The header begins with the declarations that were moved into it, if there are any. -/
theorem follows_forLoop {loop loop' : LoopFragment} (h : loop.Moved indent loop')
    (declaration : Option Node) :
    Follows indent (forLoop loop declaration)
      (forLoop loop' (declaration.map (·.shift indent.width))) := by
  have hclassic := follows_classicLoop h declaration
  have hranging := follows_rangingLoop h declaration
  obtain ⟨hinit, htest, hupdate, hbody⟩ := h
  obtain ⟨-⟩ := hbody
  refine (Shifts.rangeSpan _ _).bind fun span => ?_
  have hheader : ((declaration.map (·.shift indent.width)).map Node.start) =
      (declaration.map Node.start).map (indent.width + ·) := by
    rw [Option.map_map, Option.map_map]
    exact congrArg (Option.map · declaration) (funext fun node => node.start_shift _)
  have hend : (declaration.map (·.shift indent.width)).map (·.last + 1) =
      (declaration.map (·.last + 1)).map (indent.width + ·) := by
    rw [Option.map_map, Option.map_map]
    refine congrArg (Option.map · declaration) (funext fun node => ?_)
    exact congrArg (· + 1) (node.last_shift _)
  dsimp only
  rw [Range.start_shift_add]
  simp only [startOf?_moved hinit, startOf?_moved htest, startOf?_moved hupdate,
    finishOf?_moved hinit, hheader, hend, ← Option.map_or, Range.shift, getD_moved]
  refine (Shifts.find _ _ _ _).bind fun lparen => ?_
  rw [getD_last_moved]
  split
  · exact hclassic _ _ _
  · exact hranging _ _ _
  · exact hranging _ _ _

end Rule

end Concretion
