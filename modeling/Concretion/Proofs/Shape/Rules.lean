import Concretion.Proofs.Demand
import Concretion.Proofs.Growth.Lookups
import Concretion.Proofs.Shape
import Concretion.Recovery.Rule.Block
import Concretion.Recovery.Rule.Branch
import Concretion.Recovery.Rule.Collection
import Concretion.Recovery.Rule.Plain
import Concretion.Recovery.Rule.Try

/-!
# Rules leave well-shaped trees

What a rule attaches is well-shaped if that is so of what the fragments attach. Expressions attach a
single node each. Statements, members and blocks without braces may attach any number of nodes.

- `FunctionFragment.Shaped`, `MemberFragment.Shaped` and so on: the parts of a construct attach
  well-shaped nodes.
- `Rule.shapes_*`: rules that attach a single node.
- `Rule.shaped_*`: rules that leave all children well-shaped.

The order of the lemmas is that of the rules.
-/

namespace Concretion

open Recover

/-! ## Fragments -/

/-- An expression attaches one well-shaped node. -/
abbrev Fragment.Shaped (scope : Scope) (fragment : Fragment) : Prop := Shapes scope fragment.build

/-- A block attaches well-shaped nodes. -/
abbrev BlockFragment.Shaped (scope : Scope) (fragment : BlockFragment) : Prop :=
  KeepsShape scope fragment.build

/-- The body of a function and the default values of its parameters are well-shaped. -/
structure FunctionFragment.Shaped (scope : Scope) (function : FunctionFragment) : Prop where
  body : function.body.Shaped scope
  defaults : ∀ value ∈ function.defaults, value.2.Shaped scope

/-- The value of a member is well-shaped. -/
def MemberValue.Shaped (scope : Scope) : MemberValue → Prop
  | method function => function.Shaped scope
  | expression value => value.Shaped scope

/-- The parts of a member are well-shaped. -/
structure MemberFragment.Shaped (scope : Scope) (member : MemberFragment) : Prop where
  key : member.key.Shaped scope
  value : ∀ value ∈ member.value, value.Shaped scope
  getter : ∀ function ∈ member.getter, function.Shaped scope
  setter : ∀ function ∈ member.setter, function.Shaped scope

/-- The parts of a class are well-shaped. -/
structure ClassFragment.Shaped (scope : Scope) (definition : ClassFragment) : Prop where
  heritage : ∀ fragment ∈ definition.heritage, fragment.Shaped scope
  elements : ∀ element ∈ definition.elements, KeepsShape scope element.build

/-- The value of a binding is well-shaped. -/
def BindingFragment.Shaped (scope : Scope) (binding : BindingFragment) : Prop :=
  ∀ fragment ∈ binding.init, fragment.Shaped scope

/-- The parts of a loop are well-shaped. -/
structure LoopFragment.Shaped (scope : Scope) (loop : LoopFragment) : Prop where
  init : ∀ fragment ∈ loop.init, fragment.Shaped scope
  test : ∀ fragment ∈ loop.test, fragment.Shaped scope
  update : ∀ fragment ∈ loop.update, fragment.Shaped scope
  body : loop.body.Shaped scope

/-- A statement is well-shaped, and so are the parts of a loop. -/
structure StatementFragment.Shaped (scope : Scope) (statement : StatementFragment) : Prop where
  build : KeepsShape scope statement.build
  loop : ∀ loop ∈ statement.loop?, loop.Shaped scope

variable {scope : Scope}

/-- Of no member at all everything can be said. -/
theorem MemberFragment.shaped_none :
    ∀ part ∈ (none : Option MemberFragment), part.Shaped scope := by
  rintro part ⟨⟩

/-- A part that is missing attaches nothing. -/
theorem Fragment.shaped_buildOptional {fragment : Option Fragment}
    (h : ∀ part ∈ fragment, part.Shaped scope) : KeepsShape scope (buildOptional fragment) := by
  cases fragment with
  | none => exact .pure
  | some part => exact .ofShapes (h part rfl)

/-- A group has one child, so it may be put around the object of an access. -/
theorem Fragment.shapes_buildObject {operand : Fragment} (h : operand.Shaped scope) :
    Shapes scope operand.buildObject := by
  refine h.object.mono ?_
  rintro _ ⟨node, hnode, rfl⟩
  exact hnode.asObject _

namespace Rule

/-! ## Identifiers and literals -/

/-- A name that is looked up is a leaf, as identifiers have to be. -/
theorem looks_identifier (start finish : Nat) (name : String) :
    Looks scope (identifier start finish name) fun node =>
      node.WellShaped ∧ node.kind.isIdentifier = true := by
  refine (Looks.identifier _ _ _).mono ?_
  rintro _ ⟨span, -, rfl⟩
  exact ⟨Node.wellShaped_leaf rfl _, rfl⟩

/-- Such a name may be attached as it is. -/
theorem shapes_identifier (start finish : Nat) (name : String) :
    Shapes scope (do attach (← identifier start finish name)) :=
  .attached ((looks_identifier _ _ _).mono fun _ hnode => hnode.1)

/-- No name is to be skipped at first, so this one is attached as a leaf. -/
theorem shapes_ident (name : Ident) : Shapes scope (ident name) := by
  refine (Appends.ident name).mono ?_
  rintro _ ⟨span, -, rfl⟩
  exact Node.wellShaped_leaf rfl _

/-- A node of this kind must be allowed to have no children. -/
theorem looks_verbatim (range : Range) (token : TokenKind) {kind : Symbol → NodeKind}
    (hkind : ∀ symbol, (kind symbol).admits [] = true) :
    Looks scope (verbatim range token kind) Node.WellShaped := by
  refine (Looks.rangeSpan _ _).bind fun span _ => ?_
  exact (Looks.symbolOver _ _).bind fun symbol _ => .pure (Node.wellShaped_leaf (hkind symbol) _)

theorem looks_numeral (span : Span) : Looks scope (numeral span) Node.WellShaped :=
  (Looks.symbolOver _ _).bind fun _ _ => .pure (Node.wellShaped_leaf rfl _)

/-- With its sign or without, a number is a leaf. -/
theorem looks_number (range : Range) : Looks scope (number range) Node.WellShaped := by
  rw [number]
  refine (Looks.rangeSpan _ _).bind fun full _ => Looks.source.bind fun text _ => ?_
  dsimp only
  split
  · exact looks_numeral full
  · exact (Looks.spanBetween _ _).bind fun span _ => looks_numeral span

/-- A string is a leaf, whatever its quotation marks. -/
theorem looks_string (range : Range) (value : String) :
    Looks scope (string range value) Node.WellShaped := by
  rw [string]
  refine Looks.source.bind fun text _ => ?_
  split
  · exact fun _ => .throw
  · refine (Looks.rangeSpan _ _).bind fun span _ => (looks_quoteShown _ _).bind fun quote _ => ?_
    exact (Looks.intern _).bind fun _ _ => .pure (Node.wellShaped_leaf rfl _)

/-- Every kind of literal is a leaf. -/
theorem shapes_literal (range : Range) (value : Literal) : Shapes scope (literal range value) := by
  cases value with
  | number => exact .attached (looks_number range)
  | string value => exact .attached (looks_string range value)
  | boolean value =>
    cases value with
    | true => exact .attached (looks_verbatim _ _ fun _ => rfl)
    | false => exact .attached (looks_verbatim _ _ fun _ => rfl)
  | null => exact .attached (looks_verbatim _ _ fun _ => rfl)
  | regex => exact .attached (looks_verbatim _ _ fun _ => rfl)

/-! ## Operators -/

/-- A construction has the children of the call that it takes apart. -/
theorem shapes_unary (range : Range) (operator : Operator) {operand : Fragment}
    (h : operand.Shaped scope) : Shapes scope (unary range operator operand) := by
  refine (Appends.unary h).mono ?_
  rintro made ⟨node, hnode, spelling, form, symbol, -, -, hkind, hchildren⟩
  have hoperand := hnode.beside operand.operator? operator .right
  rcases hchildren with hchildren | ⟨rfl, hinvoke, hchildren⟩
  · refine Node.wellShaped_iff.2 ⟨?_, ?_⟩
    · rw [hkind, hchildren]
      cases form <;> rfl
    · rw [hchildren]
      exact List.forall_mem_singleton.2 hoperand
  · obtain ⟨hadmits, hshaped⟩ := Node.wellShaped_iff.1 hoperand
    refine Node.wellShaped_iff.2 ⟨?_, ?_⟩
    · rw [hinvoke] at hadmits
      rw [hkind, hchildren]
      exact hadmits
    · rw [hchildren]
      exact hshaped

/-- There are two operands, which may be groups. -/
theorem shapes_binary (range : Range) (operator : Operator) {left right : Fragment}
    (hl : left.Shaped scope) (hr : right.Shaped scope) :
    Shapes scope (binary range operator left right) := by
  refine (Appends.binary hl hr).mono ?_
  rintro made ⟨first, second, hfirst, hsecond, spelling, form, symbol, -, -, hkind, hchildren⟩
  refine Node.wellShaped_iff.2 ⟨?_, ?_⟩
  · rw [hkind, hchildren]
    cases form <;> rfl
  · rw [hchildren]
    refine List.forall_mem_cons.2 ⟨hfirst.beside _ _ _, ?_⟩
    exact List.forall_mem_singleton.2 (hsecond.beside _ _ _)

/-- There are three parts, which may be groups. -/
theorem shapes_conditional (range : Range) {test consequent alternate : Fragment}
    (ht : test.Shaped scope) (hc : consequent.Shaped scope) (ha : alternate.Shaped scope) :
    Shapes scope (conditional range test consequent alternate) := by
  refine (Appends.conditional ht hc ha).mono ?_
  rintro made ⟨first, second, third, hfirst, hsecond, hthird, question, colon, -, -, hkind,
    hchildren⟩
  refine Node.wellShaped_iff.2 ⟨?_, ?_⟩
  · rw [hkind, hchildren]
    rfl
  · rw [hchildren]
    refine List.forall_mem_cons.2 ⟨hfirst.beside _ _ _, ?_⟩
    refine List.forall_mem_cons.2 ⟨hsecond.beside _ _ _, ?_⟩
    exact List.forall_mem_singleton.2 (hthird.beside _ _ _)

/-! ## Collections -/

/-- A hole is a leaf of its own kind. -/
theorem shapes_element (hole : Nat) {fragment : Option Fragment}
    (h : ∀ part ∈ fragment, part.Shaped scope) : KeepsShape scope (element hole fragment) := by
  cases fragment with
  | some part => exact .ofShapes (h part rfl)
  | none => exact .stack fun stack => .ofShapes (.attach (Node.wellShaped_leaf rfl _))

/-- An array admits any number of elements. -/
theorem shapes_array (range : Range) {elements : List (Option Fragment)}
    (h : ∀ element ∈ elements, ∀ part ∈ element, part.Shaped scope) :
    Shapes scope (array range elements) := by
  refine .after (.rangeSpan _ _) fun span _ => ?_
  refine .after (.findAtOrAfter _ _ _ _) fun lbracket _ => ?_
  refine .after (.findEndingAt _ _ _ _) fun rbracket _ => ?_
  refine KeepsShape.enter ?_ fun _ => rfl
  refine KeepsShape.andThen (.forM fun part hpart => shapes_element _ (h part hpart)) ?_
  refine .stack fun stack => ?_
  dsimp only
  split
  · exact .throw
  · exact .pure

/-- An object admits any number of members. -/
theorem shapes_object (range : Range) {members : List (Recover Unit)}
    (h : ∀ member ∈ members, KeepsShape scope member) : Shapes scope (object range members) := by
  refine .after (.rangeSpan _ _) fun span _ => ?_
  refine .after (.findAtOrAfter _ _ _ _) fun lbrace _ => ?_
  refine .after (.findEndingAt _ _ _ _) fun rbrace _ => ?_
  exact KeepsShape.enter (.forM h) fun _ => rfl

/-! ## References -/

/-- A call has its callee below it, and then a list of arguments if it has one. -/
theorem shapes_call (range : Range) {callee : Fragment} {arguments : List Fragment}
    (hc : callee.Shaped scope) (ha : ∀ argument ∈ arguments, argument.Shaped scope) :
    Shapes scope (call range callee arguments) := by
  refine .after (.rangeSpan _ _) fun span _ => ?_
  refine .after looks_argumentList fun list hlist => Shapes.enter ?_
  cases list with
  | none => exact (Fragment.shapes_buildObject hc).alone fun _ => rfl
  | some list =>
    obtain ⟨lparen, rparen, place, rfl⟩ := hlist.2 list rfl
    have harguments : Looks scope
        (within (.leaf (.arguments lparen rparen) place) (arguments.forM (·.build)))
        fun made => made.kind = .arguments lparen rparen ∧ made.WellShaped := by
      have hforM : KeepsShape scope (arguments.forM (·.build)) :=
        .forM fun argument hargument => .ofShapes (ha argument hargument)
      have hbelow : Gives scope [] (arguments.forM (·.build))
          fun _ => (NodeKind.arguments lparen rparen).Accepts := hforM.below fun _ => rfl
      refine (Looks.within hbelow).mono ?_
      rintro made ⟨hkind, haccepts⟩
      exact ⟨hkind, Node.wellShaped_iff.2 (hkind ▸ haccepts)⟩
    dsimp only
    rw [← deferring_bind]
    refine (Gives.deferring (Fragment.shapes_buildObject hc [])).bind ?_
    rintro _ between ⟨rfl, object, rfl, hobject⟩
    refine harguments.andThen ?_
    rintro made ⟨hkind, hmade⟩
    refine (Gives.attach made).mono ?_
    rintro _ _ rfl
    refine ⟨?_, ?_⟩
    · show made.kind.isArguments = true
      rw [hkind]
      rfl
    · exact List.forall_mem_cons.2 ⟨hobject, List.forall_mem_singleton.2 hmade⟩

/-- There are an object and the name of a property. -/
theorem shapes_access (range : Range) {base : Fragment} (property : String)
    (h : base.Shaped scope) : Shapes scope (access range base property) := by
  refine .after (.rangeSpan _ _) fun span _ => .after (.find _ _ _ _) fun dot _ => ?_
  refine .after (looks_identifier _ _ _) fun name ⟨hname, hkind⟩ => Shapes.enter ?_
  refine (Fragment.shapes_buildObject h).andThen fun object hobject => ?_
  refine (Gives.attach name).mono ?_
  rintro _ _ rfl
  refine ⟨?_, ?_⟩
  · exact hkind
  · exact List.forall_mem_cons.2 ⟨hobject, List.forall_mem_singleton.2 hname⟩

/-- There are an object and an index. -/
theorem shapes_index (range : Range) {base index : Fragment} (hb : base.Shaped scope)
    (hi : index.Shaped scope) : Shapes scope (Rule.index range base index) := by
  refine .after (.rangeSpan _ _) fun span _ => .after (.find _ _ _ _) fun lbracket _ => ?_
  refine .after (.findEndingAt _ _ _ _) fun rbracket _ => Shapes.enter ?_
  exact (Fragment.shapes_buildObject hb).paired hi fun _ _ => rfl

/-! ## Functions -/

/-- A node that may be a parameter. -/
abbrev AddsParameter (scope : Scope) (action : Recover Unit) : Prop :=
  Appends scope action fun node => node.WellShaped ∧ node.kind.isParameter = true

/-- A plain parameter is an identifier. -/
theorem addsParameter_name (start finish : Nat) (name : String) :
    AddsParameter scope (do attach (← identifier start finish name)) := by
  refine .attached ((Looks.identifier _ _ _).mono ?_)
  rintro _ ⟨span, -, rfl⟩
  exact ⟨Node.wellShaped_leaf rfl _, rfl⟩

/-- A rest parameter has its name as the only child. -/
theorem addsParameter_restElement (parameter : Ident) (ellipsis : Option Symbol) :
    AddsParameter scope (restElement parameter ellipsis) := by
  refine .after (.rangeSpan _ _) fun span _ => ?_
  refine .after (looks_identifier _ _ _) fun name hname => .attach ⟨?_, rfl⟩
  exact Node.wellShaped_iff.2 ⟨rfl, List.forall_mem_singleton.2 hname.1⟩

/-- With its dots or without, it is the same kind of node. -/
theorem addsParameter_restParameter (parameter : Ident) :
    AddsParameter scope (restParameter parameter) := by
  rw [restParameter]
  refine .after .source fun source _ => .after .gapStart fun windowStart _ => ?_
  refine .after (.settle? _) fun found _ => ?_
  cases found with
  | none => exact addsParameter_restElement parameter none
  | some offset =>
    exact .after (.symbolAt _ _) fun symbol _ => addsParameter_restElement parameter (some symbol)

/-- A parameter with a default value is a declarator, with name and value as children. -/
theorem addsParameter_defaultParameter (parameter : Ident) {value : Fragment}
    (h : value.Shaped scope) : AddsParameter scope (defaultParameter parameter value) := by
  refine .after (.find _ _ _ _) fun equal _ => .after (.rangeSpan _ _) fun span _ => ?_
  refine .after (looks_identifier _ _ _) fun name hname => ?_
  have hbelow : Gives scope [] (attach name >>= fun _ => value.build)
      fun _ => (NodeKind.declaration (some equal)).Accepts :=
    Shapes.paired (.attach hname.1) h fun _ _ => rfl
  refine (Appends.enter hbelow).mono ?_
  rintro made ⟨hkind, haccepts⟩
  refine ⟨Node.wellShaped_iff.2 (hkind ▸ haccepts), ?_⟩
  rw [hkind]
  rfl

/-- Each way of recovering a parameter attaches one that a list admits. -/
theorem addsParameter_parameter {function : FunctionFragment} (h : function.Shaped scope)
    (parameter : Ident) : AddsParameter scope (Rule.parameter function parameter) :=
  parameter_cases (fun _ => addsParameter_restParameter parameter)
    (fun _ hvalue => addsParameter_defaultParameter parameter (h.defaults _ hvalue))
    (.after (.note _) fun _ _ => addsParameter_name _ _ _) (addsParameter_name _ _ _)

/-- A list of parameters admits parameters only. -/
theorem shapes_parameters {function : FunctionFragment} (nameEnd : Nat)
    (h : function.Shaped scope) : Shapes scope (parameters function nameEnd) := by
  refine .after (looks_parameterList function nameEnd) ?_
  rintro _ ⟨lparen, rparen, span, rfl⟩
  refine Shapes.enter ?_
  have hparameters := Appends.forM (fun parameter (_ : parameter ∈ function.parameters) =>
    addsParameter_parameter h parameter) []
  refine hparameters.mono ?_
  rintro _ _ ⟨made, rfl, hmade⟩
  refine ⟨?_, fun node hnode => (hmade node hnode).1⟩
  show List.all _ _ = true
  rw [List.all_map, List.all_eq_true]
  exact fun node hnode => (hmade node hnode).2

/-- A computed key has its expression as the only child. -/
theorem shapes_key {member : MemberFragment} (h : member.Shaped scope) :
    Shapes scope (key member) := by
  unfold key
  split
  · exact h.key
  · refine .after (.findLast _ _ _ _) fun lbracket _ => .after (.find _ _ _ _) fun rbracket _ => ?_
    exact .after (.mergeSpans _ _) fun span _ => Shapes.enter (h.key.alone fun _ => rfl)

/-- A method attaches its key, any other function its name, a placeholder or nothing. -/
theorem shaped_functionName (function : FunctionFragment) {member : Option MemberFragment}
    (h : ∀ part ∈ member, part.Shaped scope) :
    KeepsShape scope (functionName function member) := by
  cases member with
  | some member => exact .ofShapes (shapes_key (h member rfl))
  | none =>
    unfold functionName
    dsimp only
    split
    · exact .pure
    · split
      · exact .ofShapes (.attach (Node.wellShaped_leaf rfl _))
      · exact .ofShapes (shapes_identifier _ _ _)

/-- A function admits any children, they only have to be well-shaped. -/
theorem looks_shapedFunction {function : FunctionFragment} {member : Option MemberFragment}
    (hf : function.Shaped scope) (hm : ∀ part ∈ member, part.Shaped scope) :
    Looks scope (functionNode function member) Node.WellShaped := by
  refine (looks_functionStart function member).bind fun start _ => ?_
  refine (Looks.rangeSpan _ _).bind fun span _ => Looks.shaped ?_
  refine KeepsShape.below ?_ ?_
  · refine (shaped_functionName function hm).andThen ?_
    exact (KeepsShape.ofShapes (shapes_parameters _ hf)).andThen hf.body
  · intro kinds
    unfold functionNodeKind
    split <;> rfl

/-- An export statement has the declaration in it as its only child. -/
theorem looks_shapedExport (status : ExportStatus) {node : Node} (windowStart : Nat)
    (h : node.WellShaped) : Looks scope (exportIf status node windowStart) Node.WellShaped := by
  unfold exportIf
  split
  · refine (Looks.findLastWord? _ _ _ _).bind fun keyword _ => ?_
    refine (Looks.spanBetween _ _).bind fun span _ => .pure (Node.wellShaped_iff.2 ⟨rfl, ?_⟩)
    exact List.forall_mem_singleton.2 (h.moved rfl rfl)
  · exact .pure h

/-- A function that declares no name of its own. -/
theorem shapes_functionExpression {function : FunctionFragment} (h : function.Shaped scope)
    (hdeclared : (function.isDeclared && !function.isAnonymous && !function.isMethod) = false) :
    Shapes scope (functionExpression function) := by
  refine .after (.note _) fun _ _ => .after .gapStart fun windowStart _ => ?_
  refine .after (looks_shapedFunction h MemberFragment.shaped_none) fun node hnode => ?_
  rw [hdeclared]
  dsimp only
  rw [if_neg Bool.false_ne_true, pure_bind]
  refine .after (looks_shapedExport .hidden windowStart hnode) fun exported hexported => ?_
  exact fun children => (Appends.attach hexported).andThen fun shown hshown =>
    .pure ⟨shown, rfl, hshown⟩

/-- A function that declares its name, followed by the name of its binding, which is skipped. -/
theorem shapes_functionDeclaration {function : FunctionFragment} (name : Ident)
    (h : function.Shaped scope)
    (hdeclared : (function.isDeclared && !function.isAnonymous && !function.isMethod) = true) :
    Shapes scope (functionExpression function >>= fun _ => ident name) := by
  unfold functionExpression
  simp only [bind_assoc, hdeclared, if_true]
  refine .after (Looks.note _) fun _ _ => .after Looks.gapStart fun windowStart _ => ?_
  refine .after (looks_shapedFunction h MemberFragment.shaped_none) fun node hnode => ?_
  refine .after (Looks.exportStatus _) fun status _ => ?_
  refine .after (looks_shapedExport status windowStart hnode) fun exported hexported => ?_
  exact fun children => (Appends.attach hexported).andThen fun shown hshown =>
    (Looks.skippedName name _).mono fun _ _ hsame => ⟨shown, hsame.1, hshown⟩

/-! ## Members -/

/-- A shorthand has one child, any other pair has two. -/
theorem shapes_pair {member : MemberFragment} {value : Fragment} (hm : member.Shaped scope)
    (hv : value.Shaped scope) : Shapes scope (pair member value) := by
  refine .after (.rangeSpan _ _) fun span _ => ?_
  split
  · exact Shapes.enter (hm.key.alone fun _ => rfl)
  · refine .after (.find _ _ _ _) fun colon _ => Shapes.enter ?_
    exact (shapes_key hm).paired hv fun _ _ => rfl

/-- The parts of the function become those of the accessor. -/
theorem shaped_accessorParts {function : FunctionFragment} (accessor : Accessor)
    (h : function.Shaped scope) : KeepsShape scope (accessorParts function accessor) := by
  refine .after (looks_shapedFunction h MemberFragment.shaped_none) fun node hnode => ?_
  have hpart : ∀ part ∈ node.children.reverse, KeepsShape scope (attach part) :=
    fun part hpart => .ofShapes (.attach (hnode.children part (List.mem_reverse.1 hpart)))
  have hbody : KeepsShape scope (node.children.reverse.head?.toList.forM attach) := by
    refine KeepsShape.forM fun part hmem => hpart part ?_
    exact List.mem_of_mem_head? (Option.mem_toList.1 hmem)
  dsimp only
  split
  · refine (KeepsShape.forM fun part hmem => hpart part ?_).andThen hbody
    exact List.mem_of_mem_drop (List.mem_of_mem_head? (Option.mem_toList.1 hmem))
  · exact hbody

/-- An accessor admits any children, since it may take over one or two of its function. -/
theorem shapes_accessor {member : MemberFragment} {function : FunctionFragment}
    (accessor : Accessor) (ownsKey : Bool) (hm : member.Shaped scope) (hf : function.Shaped scope) :
    Shapes scope (Rule.accessor member function accessor ownsKey) := by
  have hkind : ∀ kinds, accessor.nodeKind.admits kinds = true := by
    intro kinds
    cases accessor <;> rfl
  rw [Rule.accessor]
  refine .after (looks_accessorRange _ _ _ _) fun range _ => ?_
  refine .after (.rangeSpan _ _) fun span _ => KeepsShape.enter ?_ hkind
  dsimp only
  split
  · exact (KeepsShape.ofShapes (shapes_key hm)).andThen (shaped_accessorParts accessor hf)
  · refine .after (looks_identifier _ _ _) fun name hname => ?_
    exact (KeepsShape.ofShapes (.attach hname.1)).andThen (shaped_accessorParts accessor hf)

/-- A member with two accessors leaves two nodes. -/
theorem shaped_accessors {member : MemberFragment} (h : member.Shaped scope) :
    KeepsShape scope (accessors member) := by
  rw [accessors]
  refine KeepsShape.forM fun written hwritten => .ofShapes (shapes_accessor _ _ h ?_)
  have hmem := MemberFragment.mem_accessors (List.fst_mem_of_mem_zipIdx hwritten)
  exact hmem.elim (h.getter _) (h.setter _)

/-- A method and a pair leave one node, accessors leave one for each. -/
theorem shaped_member {member : MemberFragment} (h : member.Shaped scope) :
    KeepsShape scope (Rule.member member) := by
  unfold Rule.member
  split
  · exact shaped_accessors h
  · split
    · next function hvalue =>
      refine .ofShapes (.attached (looks_shapedFunction (h.value (.method function) hvalue) ?_))
      rintro part ⟨⟩
      exact h
    · next value hvalue => exact .ofShapes (shapes_pair h (h.value (.expression value) hvalue))
    · exact .after (.rangeSpan _ _) fun span _ => .throw

/-! ## Classes -/

/-- The body of a class admits any elements. -/
theorem shapes_classBody {definition : ClassFragment} (h : definition.Shaped scope) :
    Shapes scope (classBody definition) := by
  refine .after (.find _ _ _ _) fun lbrace _ => .after (.findEndingAt _ _ _ _) fun rbrace _ => ?_
  refine .after (.mergeSpans _ _) fun span _ => KeepsShape.enter ?_ fun _ => rfl
  exact .forM fun element hmem => h.elements element (List.mem_mergeSort.1 hmem)

/-- A class admits any children: its name and its heritage may both be missing. -/
theorem looks_shapedClass {definition : ClassFragment} (name : Option Ident)
    (h : definition.Shaped scope) : Looks scope (classNode definition name) Node.WellShaped := by
  refine (Looks.note _).bind fun _ _ => (Looks.rangeSpan _ _).bind fun span _ => Looks.shaped ?_
  refine KeepsShape.below ?_ fun _ => rfl
  refine (Fragment.shaped_buildOptional h.heritage).andThen ?_
  refine (KeepsShape.ofShapes (shapes_classBody h)).andThen ?_
  cases name with
  | none => exact .pure
  | some name =>
    refine .after (looks_identifier _ _ _) fun node hnode => ?_
    refine (KeepsShape.ofShapes (.attach hnode.1)).andThen (.stack fun stack => ?_)
    split
    · exact .reorder _
    · exact .reorder _

/-- The class is attached as it has been closed. -/
theorem shapes_classExpression {definition : ClassFragment} (h : definition.Shaped scope) :
    Shapes scope (classExpression definition) :=
  .attached (looks_shapedClass _ h)

/-! ## Bindings -/

/-- The nodes are declarators. -/
abbrev Declarators (nodes : List Node) : Prop :=
  ∀ node ∈ nodes, node.WellShaped ∧ node.kind.isDeclaration = true

/-- Nodes of variable declarations have declarators below them, and at least one. -/
theorem accepts_var_iff {kind : NodeKind} (h : kind.isVar = true) {children : List Node} :
    kind.Accepts children ↔ children ≠ [] ∧ Declarators children := by
  have hadmits : kind.admits (children.map Node.kind) = true ↔
      children ≠ [] ∧ ∀ child ∈ children, child.kind.isDeclaration = true := by
    cases kind with
    | var keyword => simp [NodeKind.admits]
    | _ => cases h
  constructor
  · rintro ⟨hkinds, hshaped⟩
    obtain ⟨hne, hdeclarations⟩ := hadmits.1 hkinds
    exact ⟨hne, fun child hchild => ⟨hshaped child hchild, hdeclarations child hchild⟩⟩
  · rintro ⟨hne, hchildren⟩
    constructor
    · exact hadmits.2 ⟨hne, fun child hchild => (hchildren child hchild).2⟩
    · exact fun child hchild => (hchildren child hchild).1

/-- The value need not be there, and the name comes behind it. -/
theorem shaped_valueAndName {binding : BindingFragment} (h : binding.Shaped scope) :
    KeepsShape scope (valueAndName binding) :=
  (Fragment.shaped_buildOptional h).andThen (.ofShapes (shapes_ident _))

/-- There are two children in the end, whatever the value and the name have left. -/
theorem counts_declarationParts {binding : BindingFragment} (span : Span)
    (h : binding.Shaped scope) : Counts scope 2 (declarationParts binding span) := by
  refine .after (shaped_valueAndName h) fun before hbefore => Gives.getStack.bind ?_
  rintro stack children ⟨rfl, hstack⟩
  have hcount : stack.current.childCount = children.length := congrArg List.length hstack
  split
  · next htwo =>
    obtain ⟨value, name, rfl⟩ := List.length_eq_two.1 (hcount.symm.trans htwo)
    refine (Gives.reorder [1, 0]).mono ?_
    rintro _ _ rfl
    obtain ⟨hvalue, hname⟩ := List.forall_mem_cons.1 hbefore
    refine ⟨rfl, List.forall_mem_cons.2 ⟨List.forall_mem_singleton.1 hname, ?_⟩⟩
    exact List.forall_mem_singleton.2 hvalue
  · next hone =>
    refine (Gives.attach _).mono ?_
    rintro _ _ rfl
    refine ⟨by rw [List.length_append, ← hcount, hone, List.length_singleton], ?_⟩
    refine List.forall_mem_append.2 ⟨hbefore, List.forall_mem_singleton.2 ?_⟩
    exact Node.wellShaped_leaf rfl _
  · exact .throw

/-- A declarator has its name below it, and its value or the placeholder of one. -/
theorem looks_declarator {binding : BindingFragment} (h : binding.Shaped scope) :
    Looks scope (declaration binding) fun node =>
      node.WellShaped ∧ node.kind.isDeclaration = true := by
  have hnode : ∀ (equal : Option Symbol) (span : Span), Looks scope
      (within (.leaf (.declaration equal) span) (declarationParts binding span)) fun node =>
        node.WellShaped ∧ node.kind.isDeclaration = true := by
    intro equal span
    have haccepts : Gives scope [] (declarationParts binding span)
        fun _ => (NodeKind.declaration equal).Accepts :=
      (counts_declarationParts span h).accepts fun _ hlength => beq_iff_eq.2 hlength
    refine (Looks.within haccepts).mono ?_
    rintro made ⟨hkind, hmade⟩
    refine ⟨Node.wellShaped_iff.2 (hkind ▸ hmade), ?_⟩
    rw [hkind]
    rfl
  refine (Looks.rangeSpan _ _).bind fun span _ => ?_
  cases hinit : binding.init with
  | none => exact hnode none span
  | some init => exact (Looks.find _ _ _ _).bind fun equal _ => hnode (some equal) span

/-- Only the number of its children counts for an export statement. -/
theorem admits_of_isExport {kind : NodeKind} (h : kind.isExport = true)
    {kinds others : List NodeKind} (hlength : kinds.length = others.length)
    (ha : kind.admits others = true) : kind.admits kinds = true := by
  cases kind with
  | exportStatement keyword isDefault path =>
    rw [NodeKind.admits] at ha ⊢
    rwa [hlength]
  | _ => cases h

section Declarators

variable {node declarator : Node}

/-- There may be any number of declarators but none, so one more does not matter. -/
theorem looks_shapedAddDeclarator (hvar : node.kind.isVar = true) (hn : node.WellShaped)
    (hd : declarator.WellShaped ∧ declarator.kind.isDeclaration = true) :
    Looks scope (addDeclarator declarator node) Node.WellShaped := by
  refine (Looks.mergeSpans _ _).bind fun span _ => .pure (Node.wellShaped_iff.2 ?_)
  obtain ⟨-, hchildren⟩ := (accepts_var_iff hvar).1 (Node.wellShaped_iff.1 hn)
  refine (accepts_var_iff hvar).2 ⟨List.append_ne_nil_of_right_ne_nil _ (List.cons_ne_nil _ _), ?_⟩
  exact List.forall_mem_append.2 ⟨hchildren, List.forall_mem_singleton.2 hd⟩

/-- The statement that is extended declares variables, or it exports the only child that does. -/
theorem looks_shapedExtend (hvariables : node.declaresVariables = true) (hn : node.WellShaped)
    (hd : declarator.WellShaped ∧ declarator.kind.isDeclaration = true) :
    Looks scope (extendVariables node declarator) Node.WellShaped := by
  unfold extendVariables
  split
  · next hvar => exact looks_shapedAddDeclarator hvar hn hd
  · next hvar =>
    rw [Node.declaresVariables, Bool.eq_false_iff.2 hvar, Bool.false_or,
      Bool.and_eq_true] at hvariables
    obtain ⟨last, hlast, hkind⟩ := (Option.any_eq_true _ _).1 hvariables.2
    have hchildren : node.children = node.children.dropLast ++ [last] :=
      (List.dropLast_append_getLast? last hlast).symm
    obtain ⟨hadmits, hshaped⟩ := Node.wellShaped_iff.1 hn
    have hmem : last ∈ node.children := List.mem_of_getLast? hlast
    rw [hlast]
    simp only [Option.toList_some, List.mapM_cons, List.mapM_nil, bind_assoc, pure_bind]
    refine (Looks.mergeSpans _ _).bind fun span _ => ?_
    refine (looks_shapedAddDeclarator hkind (hshaped last hmem) hd).bind fun made hmade => ?_
    refine .pure (Node.wellShaped_iff.2 ⟨?_, ?_⟩)
    · refine admits_of_isExport hvariables.1 ?_ hadmits
      rw [hchildren, List.dropLast_concat, List.map_append, List.map_append, List.length_append,
        List.length_append]
      rfl
    · refine List.forall_mem_append.2 ⟨fun child hchild => ?_, List.forall_mem_singleton.2 hmade⟩
      exact hshaped child (List.dropLast_subset _ hchild)

end Declarators

/-- The statement that is replaced keeps its kind. -/
theorem shaped_continuedVariable {binding : BindingFragment} (h : binding.Shaped scope) :
    KeepsShape scope (continuedVariable binding) := by
  refine .after (looks_declarator h) fun declarator hdeclarator => ?_
  refine .after (.terminates _ _) fun terminated _ => fun children hchildren => ?_
  refine Gives.getStack.bind ?_
  rintro stack after ⟨rfl, hstack⟩
  split
  · next statement hlast =>
    have hlast : after.getLast? = some statement := hstack ▸ hlast
    split
    · next hvariables =>
      have hstatement := hchildren statement (List.mem_of_getLast? hlast)
      refine (looks_shapedExtend hvariables hstatement hdeclarator).andThen ?_
      intro extended hextended
      refine (Gives.replaceLast _ hlast).mono ?_
      rintro _ _ rfl
      refine List.forall_mem_append.2 ⟨fun child hchild => ?_, List.forall_mem_singleton.2 ?_⟩
      · exact hchildren child (List.dropLast_subset _ hchild)
      · exact hextended.moved rfl rfl
    · exact .throw
  · exact .throw

/-- The statement has one declarator to begin with. -/
theorem shapes_variableStatement {binding : BindingFragment} (keywordStart windowStart : Nat)
    (h : binding.Shaped scope) :
    Shapes scope (variableStatement binding keywordStart windowStart) := by
  refine .after (.symbolAt _ _) fun keyword _ => ?_
  refine .after (looks_declarator h) fun declarator hdeclarator => ?_
  refine .after (.spanBetween _ _) fun span _ => .after (.terminates _ _) fun terminated _ => ?_
  refine .after (.exportStatus _) fun status _ => .attached (looks_shapedExport status _ ?_)
  refine Node.wellShaped_iff.2 ((accepts_var_iff rfl).2 ⟨List.cons_ne_nil _ _, ?_⟩)
  exact List.forall_mem_singleton.2 hdeclarator

/-- A declarator becomes a statement of its own, or one more child of the last one. -/
theorem shaped_variableBinding {binding : BindingFragment} (h : binding.Shaped scope) :
    KeepsShape scope (variableBinding binding) := by
  refine .after .gapStart fun windowStart _ => .after (looks_ownKeyword _ _ _) fun found _ => ?_
  cases found with
  | some offset => exact .ofShapes (shapes_variableStatement _ _ h)
  | none =>
    refine .stack fun stack => ?_
    split
    · exact shaped_continuedVariable h
    · refine .after .source fun text _ => .after (.settle _ _) fun offset _ => ?_
      exact .ofShapes (shapes_variableStatement _ _ h)

/-- The export statement has its value as the only child. -/
theorem shapes_defaultExport {binding : BindingFragment} (h : binding.Shaped scope) :
    Shapes scope (defaultExport binding) := by
  unfold defaultExport
  split
  · exact .after (.rangeSpan _ _) fun span _ => fun _ => .throw
  · next init hinit =>
    refine .after .gapStart fun windowStart _ => .after (.findLastWord? _ _ _ _) fun keyword _ => ?_
    refine .after (.rangeSpan _ _) fun span _ => ?_
    refine .after (Looks.shaped ((h init hinit).alone fun _ => rfl)) fun node hnode => ?_
    refine .after .takeSkip fun _ _ => .after (.terminates _ _) fun flag _ => .attach ?_
    exact hnode.moved rfl rfl

/-- An export statement around the class has it as the only child. -/
theorem shapes_exportedClass {definition : ClassFragment} (h : definition.Shaped scope)
    (windowStart : Nat) (status : ExportStatus) (name : Option Ident) :
    Shapes scope (exportedClass definition windowStart status name) :=
  .after (looks_shapedClass name h) fun _ hnode => .attached (looks_shapedExport status _ hnode)

/-- With its name or without, a class declaration is one node. -/
theorem shapes_classDeclaration (name : Ident) {definition : ClassFragment}
    (h : definition.Shaped scope) : Shapes scope (classDeclaration name definition) := by
  rw [classDeclaration]
  refine .after (.note _) fun _ _ => .after .gapStart fun windowStart _ => ?_
  split
  · exact shapes_exportedClass h _ _ _
  · exact .after (.exportStatus _) fun status _ => shapes_exportedClass h _ _ _

/-- Only a declarator that goes into another statement attaches nothing. -/
theorem shaped_binding {binding : BindingFragment} (h : binding.Shaped scope) :
    KeepsShape scope (Rule.binding binding) := by
  refine .after (.note _) fun _ _ => ?_
  split
  · exact .ofShapes (shapes_defaultExport h)
  · split
    · exact shaped_valueAndName h
    · exact shaped_variableBinding h

/-- The declaration of a function takes the place of its binding. -/
theorem shaped_functionBinding {binding : BindingFragment} {function : FunctionFragment}
    {init : Fragment} (h : function.Shaped scope) (hinit : binding.init = some init)
    (hbuild : init.build = functionExpression function)
    (hdeclared : (function.isDeclared && !function.isAnonymous && !function.isMethod) = true)
    (hfunction : declaresFunction binding.name binding.isFunctionDeclaration = true) :
    KeepsShape scope (Rule.binding binding) := by
  obtain ⟨hdeclaration, hname⟩ := Bool.and_eq_true_iff.1 hfunction
  refine .after (.note _) fun _ _ => ?_
  rw [if_neg (by simpa using hname), if_pos hdeclaration, valueAndName, hinit]
  show KeepsShape scope (init.build >>= fun _ => ident binding.name)
  rw [hbuild]
  exact .ofShapes (shapes_functionDeclaration _ h hdeclared)

/-! ## Loops -/

/-- The place of a missing clause is taken by a leaf. -/
theorem shapes_clause {fragment : Option Fragment} (placeholder : Nat)
    (h : ∀ part ∈ fragment, part.Shaped scope) : Shapes scope (clause fragment placeholder) := by
  cases fragment with
  | some part => exact h part rfl
  | none => exact .attach (Node.wellShaped_leaf rfl _)

/-- There is one node, the declarations or the clause that was written. -/
theorem shapes_firstClause {declaration : Option Node} {init : Option Fragment} (placeholder : Nat)
    (hd : ∀ node ∈ declaration, node.WellShaped) (h : ∀ part ∈ init, part.Shaped scope) :
    Shapes scope (firstClause declaration init placeholder) := by
  cases declaration with
  | some node => exact .attach (hd node rfl)
  | none => exact shapes_clause _ h

/-- A body may leave several nodes, which is checked with the parts of the loop. -/
theorem shaped_loopBody {body : BlockFragment} (h : body.Shaped scope) :
    KeepsShape scope (loopBody body) := by
  refine .stack fun before => KeepsShape.andThen h (.stack fun after => ?_)
  split
  · refine .after (.rangeSpan _ _) fun span _ => .ofShapes (.attach ?_)
    exact Node.wellShaped_leaf rfl _
  · exact .pure

section Loops

variable {loop : LoopFragment} {declaration : Option Node}

/-- The number of children is checked in the end, so there are four. -/
theorem shapes_classicLoop (span : Span) (lparen : Symbol) (initEnd : Nat)
    (h : loop.Shaped scope) (hd : ∀ node ∈ declaration, node.WellShaped) :
    Shapes scope (classicLoop loop declaration span lparen initEnd) := by
  refine .after (.find _ _ _ _) fun semi1 _ => .after (.find _ _ _ _) fun semi2 _ => ?_
  refine .after (.findLast _ _ _ _) fun rparen _ => Shapes.enter ?_
  refine (show Counts scope 4 _ from ?_).accepts fun _ hlength => beq_iff_eq.2 hlength
  refine .after (.ofShapes (shapes_firstClause _ hd h.init)) ?_
  refine .after (.ofShapes (shapes_clause _ h.test)) ?_
  refine .after (.ofShapes (shapes_clause _ h.update)) ?_
  exact .after (shaped_loopBody h.body) .expectChildren

/-- The number of children is checked in the end, so there are three. -/
theorem shapes_rangingLoop (span : Span) (lparen : Symbol) (initEnd : Nat)
    (h : loop.Shaped scope) (hd : ∀ node ∈ declaration, node.WellShaped) :
    Shapes scope (rangingLoop loop declaration span lparen initEnd) := by
  refine .after (.findWord _ _ _ _) fun keyword _ => ?_
  refine .after (.findLast _ _ _ _) fun rparen _ => Shapes.enter ?_
  refine (show Counts scope 3 _ from ?_).accepts ?_
  · refine .after (.ofShapes (shapes_firstClause _ hd h.init)) ?_
    refine .after (.ofShapes (shapes_clause _ h.update)) ?_
    exact .after (shaped_loopBody h.body) .expectChildren
  · intro kinds hlength
    split <;> exact beq_iff_eq.2 hlength

/-- The kind of the loop decides on how many parts it has. -/
theorem shapes_forLoop (h : loop.Shaped scope) (hd : ∀ node ∈ declaration, node.WellShaped) :
    Shapes scope (forLoop loop declaration) := by
  refine .after (.rangeSpan _ _) fun span _ => .after (.find _ _ _ _) fun lparen _ => ?_
  dsimp only
  split
  · exact shapes_classicLoop _ _ _ h hd
  · exact shapes_rangingLoop _ _ _ h hd
  · exact shapes_rangingLoop _ _ _ h hd

/-! ## Blocks -/

/-- The declarators of both statements are declarators of the combined one. -/
theorem looks_shapedAppend {combined node : Node} (hvar : combined.kind.isVar = true)
    (hc : combined.WellShaped) (hn : node.WellShaped) :
    Looks scope (appendDeclarators combined node) fun made =>
      made.kind.isVar = true ∧ made.WellShaped := by
  refine (looks_expectVar node).bind fun _ hnode => ?_
  refine (Looks.foldlM (fun _ _ _ => Looks.mergeSpans _ _) node.children trivial).bind ?_
  refine fun span _ => .pure ⟨hvar, Node.wellShaped_iff.2 ((accepts_var_iff hvar).2 ?_)⟩
  obtain ⟨hne, hcombined⟩ := (accepts_var_iff hvar).1 (Node.wellShaped_iff.1 hc)
  obtain ⟨-, hchildren⟩ := (accepts_var_iff hnode).1 (Node.wellShaped_iff.1 hn)
  exact ⟨List.append_ne_nil_of_left_ne_nil hne _, List.forall_mem_append.2 ⟨hcombined, hchildren⟩⟩

/-- The combined statement has those of the first, so there is at least one. -/
theorem looks_shapedCombine {nodes : List Node} (h : ∀ node ∈ nodes, node.WellShaped) :
    Looks scope (combineDeclarations nodes) fun combined => ∀ node ∈ combined, node.WellShaped := by
  cases nodes with
  | nil =>
    refine .pure ?_
    rintro node ⟨⟩
  | cons first rest =>
    obtain ⟨hfirst, hrest⟩ := List.forall_mem_cons.1 h
    have hfold : ∀ combined : Node, combined.kind.isVar = true → combined.WellShaped →
        Looks scope (rest.foldlM appendDeclarators combined) fun made =>
          made.kind.isVar = true ∧ made.WellShaped := by
      clear h
      induction rest with
      | nil => exact fun combined hvar hshaped => .pure ⟨hvar, hshaped⟩
      | cons node rest ih =>
        intro combined hvar hshaped
        obtain ⟨hnode, hrest⟩ := List.forall_mem_cons.1 hrest
        rw [List.foldlM_cons]
        exact (looks_shapedAppend hvar hshaped hnode).bind fun made hmade =>
          ih hrest made hmade.1 hmade.2
    refine (looks_expectVar first).bind fun _ hvar => ?_
    refine (hfold first hvar hfirst).bind fun combined ⟨hkind, hcombined⟩ => .pure ?_
    rintro node ⟨⟩
    obtain ⟨hne, hchildren⟩ := (accepts_var_iff hkind).1 (Node.wellShaped_iff.1 hcombined)
    refine Node.wellShaped_iff.2 ((accepts_var_iff hkind).2 ⟨mt List.map_eq_nil_iff.1 hne, ?_⟩)
    -- neither the kinds of the declarators nor what is below them depends on semicolons
    refine List.forall_mem_map.2 fun child hchild => ?_
    exact ⟨(hchildren child hchild).1.moved rfl rfl, (hchildren child hchild).2⟩

/-- The node that the declarations are collected in is not attached. -/
theorem shapes_declaringLoop {declarations : List StatementFragment} (hl : loop.Shaped scope)
    (h : ∀ statement ∈ declarations, statement.Shaped scope) :
    Shapes scope (declaringLoop loop declarations) := by
  have hbuilds : KeepsShape scope (declarations.forM (·.build)) :=
    .forM fun statement hmem => (h statement hmem).build
  refine .after (.note _) fun _ _ => .after (.rangeSpan _ _) fun span _ => ?_
  refine .after (Looks.shaped (hbuilds.below fun _ => rfl)) fun collected hcollected => ?_
  refine .after (looks_shapedCombine hcollected.children) fun combined hcombined => ?_
  exact shapes_forLoop hl hcombined

end Loops

section Blocks

variable {statements : List StatementFragment}

/-- A block in braces is a single node. -/
theorem shapes_bracedBlock (range : Range)
    (h : ∀ statement ∈ statements, statement.Shaped scope) :
    Shapes scope (bracedBlock range statements) := by
  refine .after (.rangeSpan _ _) fun _ _ => .after (.findAtOrAfter _ _ _ _) fun lbrace _ => ?_
  refine .after (.findEndingAt _ _ _ _) fun rbrace _ => .after (.mergeSpans _ _) fun span _ => ?_
  exact KeepsShape.enter (.forM fun statement hmem => (h statement hmem).build) fun _ => rfl

/-- What the last statement attaches is all there is. -/
theorem shaped_parameterBlock (range : Range)
    (h : ∀ statement ∈ statements, statement.Shaped scope) :
    KeepsShape scope (parameterBlock range statements) := by
  unfold parameterBlock
  split
  · next body hlast => exact (h body (List.mem_of_getLast? hlast)).build
  · exact .after (.rangeSpan _ _) fun span _ => .throw

/-- Statements in front of the loop are attached beside it. -/
theorem shaped_syntheticBlock (h : ∀ statement ∈ statements, statement.Shaped scope) :
    KeepsShape scope (syntheticBlock statements) := by
  unfold syntheticBlock
  split
  · exact .forM fun statement hmem => (h statement hmem).build
  · next loop hloop =>
    obtain ⟨last, hlast, hlastLoop⟩ := Option.bind_eq_some_iff.1 hloop
    have hl : loop.Shaped scope := (h last (List.mem_of_getLast? hlast)).loop loop hlastLoop
    have hrest : ∀ statement ∈ statements.dropLast, statement.Shaped scope :=
      fun statement hmem => h statement (List.dropLast_subset _ hmem)
    refine (KeepsShape.forM fun statement hmem => ?_).andThen ?_
    · exact (hrest statement (List.mem_of_mem_take hmem)).build
    · split
      · refine .ofShapes (shapes_forLoop hl ?_)
        rintro node ⟨⟩
      · exact .ofShapes (shapes_declaringLoop hl fun statement hmem =>
          hrest statement (List.mem_of_mem_drop hmem))

/-- A block in braces is one node, the others are as many as their statements leave. -/
theorem shaped_block (range : Range) (kind : BlockKind)
    (h : ∀ statement ∈ statements, statement.Shaped scope) :
    KeepsShape scope (block range kind statements) := by
  cases kind with
  | braced => exact .ofShapes (shapes_bracedBlock range h)
  | parameter => exact shaped_parameterBlock range h
  | synthetic => exact shaped_syntheticBlock h

end Blocks

/-! ## Branching statements -/

section Branches

variable {test : Fragment} {body : BlockFragment}

/-- The number of children is checked in the end, a missing branch being one of them. -/
theorem shapes_ifElse (range : Range) {fail : Option BlockFragment} (ht : test.Shaped scope)
    (hp : body.Shaped scope) (hf : ∀ block ∈ fail, block.Shaped scope) :
    Shapes scope (ifElse range test body fail) := by
  refine .after (.rangeSpan _ _) fun span _ => .after (.find _ _ _ _) fun lparen _ => ?_
  refine .after (.find _ _ _ _) fun rparen _ => Shapes.enter ?_
  refine (show Counts scope 3 _ from ?_).accepts fun _ hlength => beq_iff_eq.2 hlength
  refine .after (.ofShapes ht) (.after hp ?_)
  cases fail with
  | some block => exact .after (hf block rfl) .expectChildren
  | none =>
    refine .stack fun stack => .after (.ofShapes (.attach ?_)) .expectChildren
    exact Node.wellShaped_leaf rfl _

/-- A subject is followed by any number of clauses. -/
theorem shapes_switch (range : Range) {cases : List (Range × Recover Unit)}
    (ht : test.Shaped scope) (hc : ∀ clause ∈ cases, KeepsShape scope clause.2) :
    Shapes scope (switch range test cases) := by
  refine .after (.rangeSpan _ _) fun span _ => .after (.find _ _ _ _) fun lparen _ => ?_
  refine .after (.find _ _ _ _) fun rparen _ => .after (.find _ _ _ _) fun lbrace _ => ?_
  refine .after (.findEndingAt _ _ _ _) fun rbrace _ => ?_
  exact KeepsShape.enter ((KeepsShape.ofShapes ht).andThen (.forM hc)) fun _ => rfl

/-- A clause admits any children, of which the test may be the first. -/
theorem shapes_caseNode {clause : CaseFragment} (ht : ∀ test ∈ clause.test, test.Shaped scope)
    (hs : ∀ statement ∈ clause.statements, statement.Shaped scope) {kind : NodeKind}
    (colon : Symbol) (hkind : ∀ kinds, kind.admits kinds = true) :
    Shapes scope (caseNode clause kind colon) := by
  refine .after (.rangeSpan _ _) fun part _ => .after (.mergeSpans _ _) fun span _ => ?_
  refine KeepsShape.enter ((Fragment.shaped_buildOptional ht).andThen ?_) hkind
  exact .forM fun statement hmem => (hs statement hmem).build

/-- Both kinds of clauses admit any children. -/
theorem shapes_switchCase {clause : CaseFragment} (ht : ∀ test ∈ clause.test, test.Shaped scope)
    (hs : ∀ statement ∈ clause.statements, statement.Shaped scope) :
    Shapes scope (switchCase clause) := by
  rw [switchCase]
  split
  · exact .after (.find _ _ _ _) fun colon _ => shapes_caseNode ht hs colon fun _ => rfl
  · exact .after (.find _ _ _ _) fun colon _ => shapes_caseNode ht hs colon fun _ => rfl

/-- There are a test and whatever the body leaves. -/
theorem shapes_whileLoop (range : Range) (ht : test.Shaped scope) (hb : body.Shaped scope) :
    Shapes scope (whileLoop range test body) := by
  refine .after (.rangeSpan _ _) fun span _ => .after (.find _ _ _ _) fun lparen _ => ?_
  refine .after (.find _ _ _ _) fun rparen _ => ?_
  exact KeepsShape.enter ((KeepsShape.ofShapes ht).andThen hb) fun _ => rfl

/-- There are whatever the body leaves and a test. -/
theorem shapes_doLoop (range : Range) (ht : test.Shaped scope) (hb : body.Shaped scope) :
    Shapes scope (doLoop range test body) := by
  refine .after (.rangeSpan _ _) fun span _ => .after (.find _ _ _ _) fun lparen _ => ?_
  refine .after (.find _ _ _ _) fun rparen _ => ?_
  have hparts : KeepsShape scope (body.build >>= fun _ => test.build) :=
    KeepsShape.andThen hb (.ofShapes ht)
  refine .after (Looks.shaped (hparts.below fun _ => rfl)) fun node hnode => ?_
  exact .after (.endsWithSemicolon _) fun flag _ => .attach (hnode.moved rfl rfl)

/-- There are an object and whatever the body leaves. -/
theorem shapes_withScope (range : Range) (ht : test.Shaped scope) (hb : body.Shaped scope) :
    Shapes scope (withScope range test body) := by
  refine .after (.rangeSpan _ _) fun span _ => .after (.find _ _ _ _) fun lparen _ => ?_
  refine .after (.find _ _ _ _) fun rparen _ => ?_
  exact KeepsShape.enter ((KeepsShape.ofShapes ht).andThen hb) fun _ => rfl

end Branches

/-! ## Plain statements -/

/-- Whose the semicolon is has no part in the shape. -/
theorem looks_shapedStatement {node : Node} (finish : Nat) (h : node.WellShaped) :
    Looks scope (withSemicolon node finish) Node.WellShaped :=
  (Looks.terminates _ _).bind fun _ _ => .pure (h.moved rfl rfl)

/-- The node is the last child when it is marked. -/
theorem shapes_expressionStatement {expression : Fragment} (h : expression.Shaped scope) :
    Shapes scope (expressionStatement expression) := by
  refine fun children => h.andThen fun node hnode => Gives.getStack.bind ?_
  rintro stack _ ⟨rfl, hstack⟩
  have hlast : stack.lastChild? = some node := by
    show stack.children.getLast? = some node
    rw [hstack, List.getLast?_concat]
  rw [hlast]
  refine (looks_shapedStatement _ hnode).andThen fun statement hstatement => ?_
  refine (Gives.replaceLast _ List.getLast?_concat).mono fun _ after hafter => ?_
  rw [List.dropLast_concat] at hafter
  exact ⟨statement, hafter, hstatement⟩

/-- An empty statement is a leaf. -/
theorem shapes_emptyStatement (range : Range) : Shapes scope (emptyStatement range) :=
  .after (.rangeSpan _ _) fun _ _ => .attach (Node.wellShaped_iff.2 ⟨rfl, List.forall_mem_nil _⟩)

/-- The value is the only child. -/
theorem shapes_throwStatement (range : Range) {value : Fragment} (h : value.Shaped scope) :
    Shapes scope (throwStatement range value) := by
  refine .after (.rangeSpan _ _) fun span _ => ?_
  refine .after (Looks.shaped (h.alone fun _ => rfl)) fun node hnode => ?_
  exact .attached (looks_shapedStatement _ hnode)

/-- There is one child, the value or a placeholder. A generated `return` is no node. -/
theorem shaped_returnStatement (range : Range) {value : Option Fragment} (isGenerated : Bool)
    (h : ∀ part ∈ value, part.Shaped scope) :
    KeepsShape scope (returnStatement range value isGenerated) := by
  unfold returnStatement
  split
  · exact Fragment.shaped_buildOptional h
  · refine .after (.rangeSpan _ _) fun span _ => ?_
    refine .after (Looks.shaped (Shapes.alone ?_ fun _ => rfl)) fun node hnode =>
      .ofShapes (.attached (looks_shapedStatement _ hnode))
    cases value with
    | some part => exact h part rfl
    | none => exact .attach (Node.wellShaped_leaf rfl _)

/-- A jump is a leaf, with its label as a symbol. -/
theorem shapes_jump (range : Range) (kind : JumpKind) (label : Option String) :
    Shapes scope (jump range kind label) := by
  refine .after (.rangeSpan _ _) fun span _ => .after (looks_jumpLabel _ label) fun symbol _ => ?_
  refine .after (.endsWithSemicolon _) fun owns _ => .attach (Node.wellShaped_iff.2 ⟨?_, ?_⟩)
  · cases kind <;> rfl
  · exact List.forall_mem_nil _

/-- The label is an identifier, which is followed by whatever the body leaves. -/
theorem shapes_labelled (range : Range) (label : String) {body : BlockFragment}
    (h : body.Shaped scope) : Shapes scope (labelled range label body) := by
  refine .after (.rangeSpan _ _) fun span _ => .after (.find _ _ _ _) fun colon _ => ?_
  refine .after (looks_identifier _ _ _) fun name hname => ?_
  exact KeepsShape.enter ((KeepsShape.ofShapes (.attach hname.1)).andThen h) fun _ => rfl

/-! ## Statements with handlers -/

/-- A well-shaped `catch` clause. -/
abbrev AddsHandler (scope : Scope) (action : Recover Unit) : Prop :=
  Appends scope action fun node => node.WellShaped ∧ node.kind = .catchClause

/-- A handler has its exception and whatever its body leaves. -/
theorem addsHandler_catchClause (range : Range) (exception : Ident) {body : BlockFragment}
    (h : body.Shaped scope) : AddsHandler scope (catchClause range exception body) := by
  refine .after (.rangeSpan _ _) fun span _ => ?_
  have hparts : KeepsShape scope (ident exception >>= fun _ => body.build) :=
    (KeepsShape.ofShapes (shapes_ident exception)).andThen h
  have hbelow : Gives scope [] (ident exception >>= fun _ => body.build)
      fun _ => NodeKind.catchClause.Accepts := hparts.below fun _ => rfl
  refine (Appends.enter hbelow).mono ?_
  rintro made ⟨hkind, haccepts⟩
  exact ⟨Node.wellShaped_iff.2 (hkind ▸ haccepts), hkind⟩

/-- What stands in front of the parts of a `try` statement in the end. -/
theorem gives_finallyLast {finalizer : Option BlockFragment} {body handler block : Node}
    (hbody : body.WellShaped) (hhandler : handler.WellShaped) (hblock : block.WellShaped)
    (hkind : handler.kind.isHandler = true)
    (hnone : finalizer = none → block.kind.isFinalizer = true) :
    Gives scope [body, handler, block] (finallyLast finalizer) fun _ =>
      NodeKind.tryCatch.Accepts := by
  have haccepts : ∀ last : Node, last.WellShaped → last.kind.isFinalizer = true →
      NodeKind.tryCatch.Accepts [body, handler, last] := by
    intro last hlast hfinalizer
    refine ⟨?_, List.forall_mem_cons.2 ⟨hbody, List.forall_mem_cons.2 ⟨hhandler, ?_⟩⟩⟩
    · exact Bool.and_eq_true_iff.2 ⟨hkind, hfinalizer⟩
    · exact List.forall_mem_singleton.2 hlast
  cases finalizer with
  | none => exact .pure (haccepts block hblock (hnone rfl))
  | some finalizer =>
    refine Gives.getStack.bind ?_
    rintro stack _ ⟨rfl, hstack⟩
    rw [hstack]
    refine (Looks.findWord _ _ _ _).andThen fun keyword _ => ?_
    refine (Looks.mergeSpans _ _).andThen fun span _ => (Gives.wrapThird _).mono ?_
    rintro _ _ rfl
    exact haccepts _ (Node.wellShaped_iff.2 ⟨rfl, List.forall_mem_singleton.2 hblock⟩) rfl

/-- The three parts are counted and put in order, and the block is wrapped if there is one. -/
theorem gives_tryEnd {finalizer : Option BlockFragment} {block body handler : Node}
    (hbody : body.WellShaped) (hhandler : handler.WellShaped) (hblock : block.WellShaped)
    (hkind : handler.kind.isHandler = true)
    (hnone : finalizer = none → block.kind.isFinalizer = true) :
    Gives scope [block, body, handler] (tryEnd finalizer) fun _ => NodeKind.tryCatch.Accepts := by
  refine (Gives.expectChildren 3).bind ?_
  rintro _ _ ⟨rfl, -⟩
  refine (Gives.reorder _).bind ?_
  rintro _ _ rfl
  exact gives_finallyLast hbody hhandler hblock hkind hnone

/-- Only the placeholder of a block may be left without a clause around it. -/
theorem shapes_finallyBlock {finalizer : Option BlockFragment} (last : Nat)
    (h : ∀ block ∈ finalizer, Shapes scope block.build) :
    Appends scope (finallyBlock finalizer last) fun node =>
      node.WellShaped ∧ (finalizer = none → node.kind.isFinalizer = true) := by
  cases finalizer with
  | some block => exact (h block rfl).mono fun node hnode => ⟨hnode, nofun⟩
  | none => exact .attach ⟨Node.wellShaped_leaf rfl _, fun _ => rfl⟩

/-- A `try` statement has one handler, or a placeholder in its place. -/
theorem shapes_tryCatch (range : Range) {body : BlockFragment} {catches : List (Recover Unit)}
    {finalizer : Option BlockFragment} (hb : Shapes scope body.build)
    (hc : ∀ clause ∈ catches, AddsHandler scope clause)
    (hf : ∀ block ∈ finalizer, Shapes scope block.build) :
    Shapes scope (tryCatch range body catches finalizer) := by
  rw [tryCatch]
  refine .after (.note _) fun _ _ => .after (.rangeSpan _ _) fun span _ => ?_
  rcases catches with _ | ⟨clause, _ | ⟨_, _⟩⟩
  · rw [if_neg (show ¬1 < [].length from Nat.not_lt_zero 1)]
    refine Shapes.enter ?_
    refine (shapes_finallyBlock _ hf).andThen ?_
    rintro block ⟨hblock, hnone⟩
    refine hb.andThen fun first hfirst => ?_
    have hforM : ([] : List (Recover Unit)).forM id = Pure.pure () := rfl
    rw [hforM, pure_bind]
    refine Gives.getStack.bind ?_
    rintro stack _ ⟨rfl, -⟩
    refine (Gives.attach _).bind ?_
    rintro _ _ rfl
    exact gives_tryEnd hfirst (Node.wellShaped_leaf rfl _) hblock rfl hnone
  · rw [if_neg (show ¬1 < [clause].length from Nat.lt_irrefl 1)]
    refine Shapes.enter ?_
    refine (shapes_finallyBlock _ hf).andThen ?_
    rintro block ⟨hblock, hnone⟩
    refine hb.andThen fun first hfirst => ?_
    have hforM : [clause].forM id = clause := bind_pure clause
    rw [hforM]
    refine (hc clause List.mem_cons_self).andThen ?_
    rintro handler ⟨hhandler, hkind⟩
    exact gives_tryEnd hfirst hhandler hblock (by rw [hkind]; rfl) hnone
  · rw [if_pos (by simp only [List.length_cons]; omega)]
    exact fun _ => .throw

end Rule

end Concretion
