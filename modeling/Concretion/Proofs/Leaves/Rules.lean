import Concretion.Proofs.Growth.Lookups
import Concretion.Proofs.Leaves
import Concretion.Proofs.Written.Bytes

/-!
# The leaves that rules add

What a rule adds, given what the fragments of its parts add: one statement for each rule. Where a
rule recovers the parts in another order than that of the text, its children are put in order
afterwards, and so are the leaves.
-/

namespace Concretion

open Recover

/-! ## Numbers -/

/-- What is left of a text that is cut off and trimmed lies within the text. -/
theorem Text.trimmed_takeWhile_le (p : Char → Bool) (chars : List Char) :
    (trimmed (chars.takeWhile p)).1 + width (trimmed (chars.takeWhile p)).2 ≤ width chars :=
  (trimmed_le _).trans ((Nat.le_add_right _ _).trans (width_takeWhile_add p chars).le)

/-- A slice of a text is as wide as its range. -/
theorem Source.width_of_slice {source : Source} {start finish : Nat} {text : String}
    (h : source.slice start finish = some text) :
    Text.width text.toList = finish - start ∧ finish ≤ source.size := by
  rw [slice] at h
  split at h
  · next hrange =>
    have hsize : finish ≤ source.bytes.size := by
      simp only [Bool.and_eq_true, decide_eq_true_eq] at hrange
      exact hrange.1.1.2
    refine ⟨?_, hsize⟩
    rw [← Text.utf8ByteSize_eq]
    rw [String.fromUTF8?] at h
    split at h
    · cases h
      show (source.bytes.extract start finish).size = _
      rw [Array.size_extract]
      omega
    · cases h
  · cases h

namespace Rule

variable {scope : Scope} {range : Range} {leaves others : List Leaf}

/-! ## Identifiers and literals -/

/-- A node without children shows the leaf that its own mark is. -/
theorem shows_leaf {kind : NodeKind} {span : Span} {source : Source} {leaf : Leaf}
    (hkind : kind.isLeaf = true) (h : leaf.IsAt source (kind, span)) :
    (Node.leaf kind span).Shows source [leaf] := by
  rw [Node.Shows, Node.marks_eq]
  show Shows source [leaf] ((if kind.isLeaf = true then _ else _) ++ [])
  rw [if_pos hkind, List.append_nil]
  exact .cons h .nil

/-- The symbol lies where the text was placed, so the name is shown there. -/
theorem adds_identifier (start finish : Nat) (text : String) :
    Looks scope (identifier start finish text)
      (·.Shows scope.source [.name ⟨start, finish⟩ text]) := by
  refine (Looks.identifier _ _ _).mono ?_
  rintro _ ⟨span, hspan, rfl⟩
  exact shows_leaf rfl ⟨hspan, rfl⟩

/-- The layout in front of the name is attached and shows nothing. -/
theorem adds_ident (name : Ident) : AddsNode scope [name.leaf] (ident name) := by
  refine .after Looks.takeSkip fun skips hskips => ?_
  subst hskips
  exact .attached (adds_identifier _ _ _)

/-- What is copied from the source is one leaf, over the range that it was copied from. -/
theorem adds_verbatim {token : TokenKind} {kind : Symbol → NodeKind} {leaf : Leaf}
    (hkind : ∀ symbol, (kind symbol).isLeaf = true)
    (h : ∀ mark, Leaf.Verbatim scope.source range token kind mark → leaf.IsAt scope.source mark) :
    Looks scope (verbatim range token kind) (·.Shows scope.source [leaf]) := by
  refine (Looks.rangeSpan _ _).bind fun span hspan => ?_
  refine (Looks.symbolOver _ _).bind fun symbol hsymbol => .pure ?_
  subst hsymbol
  exact shows_leaf (hkind _) (h _ ⟨hspan, rfl⟩)

/-- A numeral may be shorter than the literal's range, for blanks are cut off. -/
theorem adds_numeral {full span : Span}
    (hfull : scope.source.rangeSpan range.start range.finish = .ok full)
    (hstart : full.start ≤ span.start) (hlast : span.last ≤ full.last) :
    Looks scope (numeral span) (·.Shows scope.source [.literal range .number]) := by
  refine (Looks.symbolOver _ _).bind fun symbol hsymbol => .pure ?_
  subst hsymbol
  exact shows_leaf rfl ⟨⟨full, hfull, hstart, hlast⟩, rfl⟩

/-- Either the whole range is the numeral, or the digits that it begins with. -/
theorem adds_number :
    Looks scope (number range) (·.Shows scope.source [.literal range .number]) := by
  rw [number]
  refine (Looks.rangeSpan _ _).bind fun full hfull => Looks.source.bind fun text htext => ?_
  subst htext
  dsimp only
  split
  · exact adds_numeral hfull (Nat.le_refl _) (Nat.le_refl _)
  · next hdigits =>
    refine (Looks.spanBetween _ _).bind fun span hspan => ?_
    subst hspan
    have hbounds : full = Span.ofBounds range.start range.finish := by
      rw [Source.rangeSpan] at hfull
      split at hfull
      · exact (Except.ok.inj hfull).symm
      · cases hfull
    cases hslice : scope.source.slice range.start range.finish with
    | none =>
      rw [hslice] at hdigits
      exact absurd rfl hdigits
    | some written =>
      rw [hslice] at hdigits
      have hpos := Text.width_pos fun hnil => hdigits (List.isEmpty_iff.2 hnil)
      simp only [Option.getD_some] at hpos ⊢
      have hwidth := (Source.width_of_slice hslice).1
      have hle := Text.trimmed_takeWhile_le (· != '/') written.toList
      subst hbounds
      refine adds_numeral hfull (Nat.le_add_right _ _) ?_
      simp only [Span.ofBounds]
      omega

/-- A literal at the beginning of the source has no quote in front of it and is not recovered. -/
theorem adds_string {value : String} :
    Looks scope (string range value) (·.Shows scope.source [.literal range (.string value)]) := by
  rw [string]
  refine Looks.source.bind fun text htext => ?_
  subst htext
  split
  · exact fun _ => .throw
  · next hstart =>
    have hne : range.start ≠ 0 := by simpa using hstart
    refine (Looks.rangeSpan _ _).bind fun span hspan => ?_
    refine (looks_quoteShown _ _).bind fun quote hquote => ?_
    refine (Looks.intern _).bind fun _ _ => .pure ?_
    exact shows_leaf rfl ⟨hne, hspan, quote, hquote, rfl⟩

/-- Each sort of literal has its own leaf. -/
theorem adds_literal (value : Literal) :
    AddsNode scope [.literal range value] (literal range value) := by
  cases value with
  | number => exact .attached adds_number
  | string value => exact .attached adds_string
  | boolean value =>
    cases value with
    | true => exact .attached (adds_verbatim (fun _ => rfl) fun _ h => h)
    | false => exact .attached (adds_verbatim (fun _ => rfl) fun _ h => h)
  | null => exact .attached (adds_verbatim (fun _ => rfl) fun _ h => h)
  | regex => exact .attached (adds_verbatim (fun _ => rfl) fun _ h => h)

/-! ## Operators and collections -/

/-- The symbol of an operator is part of its node, which shows what the operand does. -/
theorem adds_unary {operator : Operator} {operand : Fragment}
    (h : AddsNode scope leaves operand.build) :
    AddsNode scope leaves (unary range operator operand) := by
  refine (Appends.unary h).mono ?_
  rintro made ⟨node, hnode, hmade⟩
  rw [Node.Shows, hmade.marks, Node.marks_beside]
  exact hnode

/-- The operands are shown from left to right. -/
theorem adds_binary {operator : Operator} {left right : Fragment}
    (hleft : AddsNode scope leaves left.build) (hright : AddsNode scope others right.build) :
    AddsNode scope (leaves ++ others) (binary range operator left right) := by
  refine (Appends.binary hleft hright).mono ?_
  rintro made ⟨node, node', hnode, hnode', hmade⟩
  rw [Node.Shows, hmade.marks, Node.marks_beside, Node.marks_beside]
  exact hnode.append hnode'

/-- All three parts are recovered in the order of the text. -/
theorem adds_conditional {test consequent alternate : Fragment} {further : List Leaf}
    (htest : AddsNode scope leaves test.build)
    (hconsequent : AddsNode scope others consequent.build)
    (halternate : AddsNode scope further alternate.build) :
    AddsNode scope (leaves ++ (others ++ further))
      (conditional range test consequent alternate) := by
  refine (Appends.conditional htest hconsequent halternate).mono ?_
  rintro made ⟨node, node', node'', hnode, hnode', hnode'', hmade⟩
  rw [Node.Shows, hmade.marks, Node.marks_beside, Node.marks_beside, Node.marks_beside]
  exact hnode.append (hnode'.append hnode'')

/-- Parentheses around an object are no leaf. -/
theorem adds_object {operand : Fragment} (h : AddsNode scope leaves operand.build) :
    AddsNode scope leaves operand.buildObject := by
  refine h.object.mono ?_
  rintro made ⟨node, hnode, rfl⟩
  rw [Node.Shows, Node.marks_asObject]
  exact hnode

/-- A hole shows nothing, as there is no fragment for it. -/
theorem adds_element (hole : Nat) {fragment : Option Fragment}
    (h : AddsOptional scope leaves fragment) : Adds scope leaves (element hole fragment) := by
  cases fragment with
  | some part => exact Appends.adds h
  | none =>
    cases h
    refine fun children => Gives.getStack.bind fun stack after ⟨hafter, _⟩ => ?_
    subst hafter
    exact (Adds.attachBare rfl rfl).adds _

/-- Where a hole is placed depends on how far the list has come, what is shown does not. -/
theorem adds_array {elements : List (Option Fragment)}
    (h : ∀ hole, Adds scope leaves (elements.forM (element hole))) :
    AddsNode scope leaves (array range elements) := by
  refine .after (.rangeSpan _ _) fun span _ => ?_
  refine .after (.findAtOrAfter _ _ _ _) fun lbracket _ => ?_
  refine .after (.findEndingAt _ _ _ _) fun rbracket _ => ?_
  refine Adds.enter ((h _).thenSilently fun children => ?_) rfl rfl
  refine Gives.getStack.bind fun stack after ⟨hafter, _⟩ => ?_
  subst hafter
  dsimp only
  split
  · exact .throw
  · exact Adds.pure _

/-! ## References -/

/-- The list is put aside while the callee is recovered, and its arguments come behind. -/
theorem adds_call {callee : Fragment} {arguments : List Fragment}
    (hcallee : AddsNode scope leaves callee.build)
    (harguments : Adds scope others (arguments.forM (·.build)))
    (hnone : arguments = [] → others = []) :
    AddsNode scope (leaves ++ others) (call range callee arguments) := by
  refine .after (.rangeSpan _ _) fun span _ => ?_
  refine .after looks_argumentList fun list ⟨habsent, hbare⟩ => ?_
  refine Adds.enter ?_ rfl rfl
  cases list with
  | none =>
    rw [hnone (habsent rfl), List.append_nil]
    exact (adds_object hcallee).adds
  | some list =>
    obtain ⟨lparen, rparen, place, hlist⟩ := hbare list rfl
    dsimp only
    rw [← deferring_bind]
    refine fun children => (Gives.deferring ((adds_object hcallee).adds children)).bind ?_
    rintro taken between ⟨rfl, marks, hmarks, hshows⟩
    subst hlist
    refine ((harguments.enter rfl rfl).adds between).mono ?_
    rintro _ after ⟨further, hfurther, hshows'⟩
    exact ⟨marks ++ further, by rw [hfurther, hmarks, List.append_assoc], hshows.append hshows'⟩

/-- The property is a leaf of its own behind the object. -/
theorem adds_access {base : Fragment} {property : String}
    (h : AddsNode scope leaves base.build) :
    AddsNode scope (leaves ++ [.property base.range.finish range.finish property])
      (access range base property) := by
  refine .after (.rangeSpan _ _) fun span _ => ?_
  refine .after (.find _ _ _ _) fun dot _ => .after (adds_identifier _ _ _) fun name hname => ?_
  exact ((adds_object h).adds.andThen (Appends.attach hname).adds).enter rfl rfl

/-- The brackets are found between the object and the index. -/
theorem adds_index {base index : Fragment} (hbase : AddsNode scope leaves base.build)
    (hindex : AddsNode scope others index.build) :
    AddsNode scope (leaves ++ others) (Rule.index range base index) := by
  refine .after (.rangeSpan _ _) fun span _ => .after (.find _ _ _ _) fun lbracket _ => ?_
  refine .after (.findEndingAt _ _ _ _) fun rbracket _ => ?_
  exact ((adds_object hbase).adds.andThen hindex.adds).enter rfl rfl

/-! ## Functions -/

/-- A parameter that is just a name. -/
theorem adds_parameter (function : FunctionFragment) {name : Ident} (h : name.isPlain = true) :
    AddsNode scope [name.leaf] (parameter function name) := by
  obtain ⟨range, text, isRest, isDefault⟩ := name
  cases isRest with
  | true => cases h
  | false =>
    cases isDefault with
    | true => cases h
    | false => exact .attached (adds_identifier _ _ _)

/-- Plain parameters are shown by their names, in the order of the list. -/
theorem adds_parameters {function : FunctionFragment} (nameEnd : Nat)
    (h : ∀ parameter ∈ function.parameters, parameter.isPlain = true) :
    AddsNode scope (function.parameters.map Ident.leaf) (parameters function nameEnd) := by
  refine .after (looks_parameterList function nameEnd) ?_
  rintro _ ⟨lparen, rparen, span, rfl⟩
  refine Adds.enter ?_ rfl rfl
  rw [← List.flatMap_pure_eq_map]
  exact Adds.forM fun parameter hparameter =>
    (adds_parameter function (h parameter hparameter)).adds

/-- The leaves of a function whose body has the given ones. -/
def functionLeaves (function : FunctionFragment) (body : List Leaf) : List Leaf :=
  (if function.kind == .arrow || function.isAnonymous then [] else [function.name.leaf]) ++
    (function.parameters.map Ident.leaf ++ body)

/-- Arrows and functions without a name have no name to show. -/
theorem adds_functionName (function : FunctionFragment) : Adds scope
    (if function.kind == .arrow || function.isAnonymous then [] else [function.name.leaf])
    (functionName function none) := by
  unfold functionName
  dsimp only
  cases harrow : function.kind == .arrow with
  | true => exact Adds.pure
  | false =>
    cases hanonymous : function.isAnonymous with
    | true => exact (Adds.attachBare rfl rfl).adds
    | false => exact (Appends.attached (adds_identifier _ _ _)).adds

/-- Name, parameters and body follow each other in the text. -/
theorem looks_functionNode {function : FunctionFragment} {body : List Leaf}
    (hparameters : ∀ parameter ∈ function.parameters, parameter.isPlain = true)
    (hbody : Adds scope body function.body.build) :
    Looks scope (functionNode function none)
      (·.Shows scope.source (functionLeaves function body)) := by
  refine (looks_functionStart function none).bind fun start _ => ?_
  refine (Looks.rangeSpan _ _).bind fun span _ => ?_
  have hkind : (functionNodeKind function false).isLeaf = false := by
    unfold functionNodeKind
    split <;> rfl
  exact ((adds_functionName function).andThen
    ((adds_parameters _ hparameters).adds.andThen hbody)).within hkind rfl

/-- An export statement shows what the declaration in it shows. -/
theorem looks_exportIf (status : ExportStatus) {node : Node} (windowStart : Nat)
    (h : node.Shows scope.source leaves) :
    Looks scope (exportIf status node windowStart) (·.Shows scope.source leaves) := by
  unfold exportIf
  split
  · refine (Looks.findLastWord? _ _ _ _).bind fun keyword _ => ?_
    refine (Looks.spanBetween _ _).bind fun span _ => .pure (Node.shows_of_children rfl ?_)
    rw [marksOf_singleton, Node.marks_flag]
    exact h
  · exact .pure h

/-- A function that declares no name of its own. -/
theorem adds_functionExpression {function : FunctionFragment} {body : List Leaf}
    (hparameters : ∀ parameter ∈ function.parameters, parameter.isPlain = true)
    (hbody : Adds scope body function.body.build)
    (hdeclared : (function.isDeclared && !function.isAnonymous && !function.isMethod) = false) :
    AddsNode scope (functionLeaves function body) (functionExpression function) := by
  refine .after (Looks.note _) fun _ _ => .after Looks.gapStart fun windowStart _ => ?_
  refine .after (looks_functionNode hparameters hbody) fun node hnode => ?_
  rw [hdeclared]
  dsimp only
  rw [if_neg Bool.false_ne_true, pure_bind]
  refine .after (looks_exportIf .hidden windowStart hnode) fun exported hexported => ?_
  exact fun children => (Appends.attach hexported).andThen fun shown hshown =>
    .pure ⟨shown, rfl, hshown⟩

/-- A function that declares its name, followed by the name of its binding: there is only one node
for both names. -/
theorem adds_functionDeclaration {function : FunctionFragment} {body : List Leaf} (name : Ident)
    (hparameters : ∀ parameter ∈ function.parameters, parameter.isPlain = true)
    (hbody : Adds scope body function.body.build)
    (hdeclared : (function.isDeclared && !function.isAnonymous && !function.isMethod) = true) :
    Adds scope (functionLeaves function body)
      (functionExpression function >>= fun _ => ident name) := by
  unfold functionExpression
  simp only [bind_assoc, hdeclared, if_true]
  refine .after (Looks.note _) fun _ _ => .after Looks.gapStart fun windowStart _ => ?_
  refine .after (looks_functionNode hparameters hbody) fun node hnode => ?_
  refine .after (Looks.exportStatus _) fun status _ => ?_
  refine .after (looks_exportIf status windowStart hnode) fun exported hexported => ?_
  exact (Appends.attach hexported).adds.thenSilently (.ofLooks (.skippedName name))

/-! ## Bindings -/

/-- The value of a binding, if it has any, is recovered in front of the name. -/
theorem gives_valueAndName {binding : BindingFragment}
    (h : AddsOptional scope leaves binding.init) :
    Gives scope [] (valueAndName binding) fun _ after => ∃ values name, after = values ++ [name] ∧
      values.length ≤ 1 ∧ Shows scope.source leaves (marksOf values) ∧
      name.Shows scope.source [binding.name.leaf] := by
  have hname : AddsNode scope [binding.name.leaf] (ident binding.name) := adds_ident binding.name
  unfold valueAndName
  cases hinit : binding.init with
  | none =>
    rw [hinit] at h
    cases h
    refine (hname []).mono ?_
    rintro _ _ ⟨name, rfl, hshows⟩
    exact ⟨[], name, rfl, Nat.zero_le 1, .nil, hshows⟩
  | some init =>
    rw [hinit] at h
    refine Appends.andThen h fun value hvalue => (hname _).mono ?_
    rintro _ _ ⟨name, rfl, hshows⟩
    exact ⟨[value], name, rfl, Nat.le_refl 1, marksOf_singleton value ▸ hvalue, hshows⟩

/-- In the tree the value of a binding stands behind the name. -/
theorem adds_declarationParts {binding : BindingFragment} (span : Span)
    (h : AddsOptional scope leaves binding.init) :
    Gives scope [] (declarationParts binding span) fun _ after =>
      Shows scope.source (binding.name.leaf :: leaves) (marksOf after) := by
  refine (gives_valueAndName h).bind ?_
  rintro _ _ ⟨values, name, rfl, hlength, hvalues, hname⟩
  refine Gives.getStack.bind fun stack after ⟨hafter, hstack⟩ => ?_
  subst hafter
  have hcount : stack.current.childCount = (values ++ [name]).length :=
    congrArg List.length hstack
  rcases values with _ | ⟨value, _ | ⟨_, _⟩⟩
  · rw [show stack.current.childCount = 1 from hcount]
    refine (Gives.attach _).mono fun _ made hmade => ?_
    cases hvalues
    rw [hmade, marksOf_concat, Node.marks_placeholder rfl rfl, List.append_nil, List.nil_append,
      marksOf_singleton]
    exact hname
  · rw [show stack.current.childCount = 2 from hcount]
    refine (Gives.reorder _).mono fun _ made hmade => ?_
    rw [hmade]
    show Shows scope.source _ (marksOf [name, value])
    rw [marksOf_cons]
    exact hname.append hvalues
  · rw [List.length_cons, List.length_cons] at hlength
    omega

/-- The initial value is shown behind the name, if there is one. -/
theorem looks_declaration {binding : BindingFragment}
    (h : AddsOptional scope leaves binding.init) :
    Looks scope (declaration binding) (·.Shows scope.source (binding.name.leaf :: leaves)) := by
  have hnode : ∀ (equal : Option Symbol) (span : Span),
      Looks scope (within (.leaf (.declaration equal) span) (declarationParts binding span))
        (·.Shows scope.source (binding.name.leaf :: leaves)) :=
    fun equal span => (adds_declarationParts span h).shownWithin rfl rfl
  refine (Looks.rangeSpan _ _).bind fun span _ => ?_
  cases hinit : binding.init with
  | none => exact hnode none span
  | some init => exact (Looks.find _ _ _ _).bind fun equal _ => hnode (some equal) span

/-- A declarator is put behind those that the node has. -/
theorem looks_addDeclarator {node declarator : Node} (hkind : node.kind.isVar = true) :
    Looks scope (addDeclarator declarator node)
      fun made => made.marks = node.marks ++ declarator.marks := by
  refine (Looks.mergeSpans _ _).bind fun span _ => .pure ?_
  have hleaf := NodeKind.isLeaf_of_isVar hkind
  rw [Node.marks_mk hleaf, Node.marks_of_kind hleaf, ← marksOf_concat]

/-- A further declarator comes last in the statement of the ones before. -/
theorem looks_extendVariables {statement declarator : Node}
    (h : statement.declaresVariables = true) :
    Looks scope (extendVariables statement declarator)
      fun made => made.marks = statement.marks ++ declarator.marks := by
  unfold extendVariables
  split
  · next hvar => exact looks_addDeclarator hvar
  · next hvar =>
    rw [Node.declaresVariables, Bool.eq_false_iff.2 hvar, Bool.false_or, Bool.and_eq_true] at h
    obtain ⟨last, hlast, hkind⟩ := (Option.any_eq_true _ _).1 h.2
    have hleaf := NodeKind.isLeaf_of_isExport h.1
    have hchildren : statement.children = statement.children.dropLast ++ [last] :=
      (List.dropLast_append_getLast? last hlast).symm
    rw [hlast]
    simp only [Option.toList_some, List.mapM_cons, List.mapM_nil, bind_assoc, pure_bind]
    refine (Looks.mergeSpans _ _).bind fun span _ => ?_
    refine (looks_addDeclarator hkind).bind fun extended hextended => .pure ?_
    rw [Node.marks_mk hleaf, Node.marks_of_kind hleaf, hchildren, List.dropLast_concat,
      marksOf_concat, marksOf_concat, hextended, List.append_assoc]

/-- The declarator goes into the statement in front, behind the marks that it has. -/
theorem adds_continuedVariable {binding : BindingFragment}
    (h : AddsOptional scope leaves binding.init) :
    Adds scope (binding.name.leaf :: leaves) (continuedVariable binding) := by
  refine .after (looks_declaration h) fun declarator hdeclarator => ?_
  refine .after (.terminates _ _) fun terminated _ => fun children => ?_
  refine Gives.getStack.bind fun stack after ⟨hafter, hstack⟩ => ?_
  subst hafter
  split
  · next statement hlast =>
    have hlast : after.getLast? = some statement := hstack ▸ hlast
    split
    · next hvariables =>
      refine (looks_extendVariables hvariables).andThen fun extended hextended => ?_
      refine (Gives.replaceLast _ hlast).mono fun _ made hmade =>
        ⟨declarator.marks, ?_, hdeclarator⟩
      have hchildren : after.dropLast ++ [statement] = after :=
        List.dropLast_append_getLast? statement hlast
      rw [hmade, marksOf_concat, Node.marks_flag, hextended, ← List.append_assoc, ← marksOf_concat,
        hchildren]
    · exact .throw
  · exact .throw

/-- A statement of its own begins with the keyword, which is no leaf. -/
theorem adds_variableStatement {binding : BindingFragment} (keywordStart windowStart : Nat)
    (h : AddsOptional scope leaves binding.init) :
    AddsNode scope (binding.name.leaf :: leaves)
      (variableStatement binding keywordStart windowStart) := by
  refine .after (.symbolAt _ _) fun keyword _ => ?_
  refine .after (looks_declaration h) fun declarator hdeclarator => ?_
  refine .after (.spanBetween _ _) fun span _ => .after (.terminates _ _) fun terminated _ => ?_
  refine .after (.exportStatus _) fun status _ => .attached (looks_exportIf status _ ?_)
  rw [Node.Shows, Node.marks_flag]
  refine Node.shows_of_children rfl ?_
  rw [Node.branch, marksOf_singleton]
  exact hdeclarator

/-- With or without a keyword of its own, a variable shows the same leaves. -/
theorem adds_variableBinding {binding : BindingFragment}
    (h : AddsOptional scope leaves binding.init) :
    Adds scope (binding.name.leaf :: leaves) (variableBinding binding) := by
  refine .after .gapStart fun windowStart _ => .after (looks_ownKeyword _ _ _) fun found _ => ?_
  cases found with
  | some offset => exact (adds_variableStatement offset windowStart h).adds
  | none =>
    refine fun children => Gives.getStack.bind fun stack after ⟨hafter, _⟩ => ?_
    subst hafter
    split
    · exact adds_continuedVariable h after
    · refine Looks.source.andThen fun text _ => (Looks.settle _ _).andThen fun offset _ => ?_
      exact (adds_variableStatement offset windowStart h).adds after

/-- A variable. -/
theorem adds_variable {binding : BindingFragment}
    (h : AddsOptional scope leaves binding.init) (hname : binding.name.name ≠ defaultBindingName)
    (hvariable : binding.isFunctionDeclaration = false) :
    Adds scope (binding.name.leaf :: leaves) (Rule.binding binding) := by
  refine .after (.note _) fun _ _ => ?_
  rw [if_neg (by simpa using hname), hvariable]
  exact adds_variableBinding h

/-- The declaration of a function. -/
theorem adds_declaredFunction {binding : BindingFragment} {init : Fragment}
    (h : Adds scope leaves (init.build >>= fun _ => ident binding.name))
    (hinit : binding.init = some init) (hname : binding.name.name ≠ defaultBindingName)
    (hfunction : binding.isFunctionDeclaration = true) :
    Adds scope leaves (Rule.binding binding) := by
  refine .after (.note _) fun _ _ => ?_
  rw [if_neg (by simpa using hname), if_pos hfunction, valueAndName, hinit]
  exact h

/-! ## Loops -/

/-- A clause that is left out has a placeholder, which shows nothing. -/
theorem adds_clause {fragment : Option Fragment} (h : AddsOptional scope leaves fragment)
    (placeholder : Nat) : AddsNode scope leaves (clause fragment placeholder) := by
  cases fragment with
  | some part => exact h
  | none =>
    cases h
    exact Adds.attachBare rfl rfl

/-- A body that leaves no node gets an empty list of statements, which shows nothing. -/
theorem adds_loopBody {body : BlockFragment} (h : Adds scope leaves body.build) :
    Adds scope leaves (loopBody body) := by
  refine fun children => Gives.getStack.bind fun before between ⟨hbetween, _⟩ => ?_
  subst hbetween
  refine (h.thenSilently fun nodes => ?_) between
  refine Gives.getStack.bind fun stack after ⟨hafter, _⟩ => ?_
  subst hafter
  split
  · exact (Adds.after (.rangeSpan _ _) fun span _ => (Adds.attachBare rfl rfl).adds) after
  · exact Adds.pure after

/-- A loop shows its first clause, its test, its update and its body. The other loops have no place
for a test. -/
theorem adds_forLoop {loop : LoopFragment} {declaration : Option Node}
    {first test update body : List Leaf}
    (hfirst : ∀ placeholder, AddsNode scope first (firstClause declaration loop.init placeholder))
    (htest : AddsOptional scope test loop.test) (hupdate : AddsOptional scope update loop.update)
    (hbody : Adds scope body loop.body.build) (hkind : loop.kind = .classic ∨ test = []) :
    AddsNode scope (first ++ (test ++ (update ++ body))) (forLoop loop declaration) := by
  have hranging : test = [] → ∀ span lparen initEnd, AddsNode scope
      (first ++ (test ++ (update ++ body))) (rangingLoop loop declaration span lparen initEnd) := by
    rintro rfl span lparen initEnd
    refine .after (.findWord _ _ _ _) fun keyword _ => .after (.findLast _ _ _ _) fun rparen _ => ?_
    rw [List.nil_append]
    refine Adds.enter ((hfirst _).adds.andThen ?_) ?_ rfl
    · refine Adds.andThen (adds_clause hupdate _).adds ?_
      exact (adds_loopBody hbody).thenSilently (.expectChildren 3)
    · split <;> rfl
  refine .after (.rangeSpan _ _) fun span _ => .after (.find _ _ _ _) fun lparen _ => ?_
  split
  · refine .after (.find _ _ _ _) fun semi1 _ => .after (.find _ _ _ _) fun semi2 _ => ?_
    refine .after (.findLast _ _ _ _) fun rparen _ => ?_
    refine Adds.enter ((hfirst _).adds.andThen ((adds_clause htest _).adds.andThen ?_)) rfl rfl
    exact (adds_clause hupdate _).adds.andThen
      ((adds_loopBody hbody).thenSilently (.expectChildren 4))
  · next hkeys => exact hranging (hkind.resolve_left (by rw [hkeys]; decide)) _ _ _
  · next hvalues => exact hranging (hkind.resolve_left (by rw [hvalues]; decide)) _ _ _

/-! ## Declarations in loop headers -/

/-- What is put into a header keeps its kind, and its declarators come behind. -/
theorem looks_appendDeclarators {combined : Node} (hvar : combined.kind.isVar = true)
    (node : Node) :
    Looks scope (appendDeclarators combined node) fun made =>
      made.kind.isVar = true ∧ made.marks = combined.marks ++ node.marks := by
  refine (looks_expectVar node).bind fun _ hnode => ?_
  refine (Looks.foldlM (fun _ _ _ => Looks.mergeSpans _ _) node.children trivial).bind ?_
  have hleaf := NodeKind.isLeaf_of_isVar hvar
  refine fun span _ => .pure ⟨hvar, ?_⟩
  rw [Node.marks_mk hleaf, Node.marks_of_kind hleaf,
    Node.marks_of_kind (NodeKind.isLeaf_of_isVar hnode), marksOf_append]

/-- All declarators are kept. -/
theorem looks_combineDeclarations (nodes : List Node) :
    Looks scope (combineDeclarations nodes) fun combined =>
      match combined with
      | some node => node.marks = marksOf nodes
      | none => nodes = [] := by
  cases nodes with
  | nil => exact .pure rfl
  | cons first rest =>
    have hfold : ∀ combined : Node, combined.kind.isVar = true →
        Looks scope (rest.foldlM appendDeclarators combined) fun made =>
          made.kind.isVar = true ∧ made.marks = combined.marks ++ marksOf rest := by
      -- Each declaration gives its marks to the one that is built up, in the order of the list.
      induction rest with
      | nil => exact fun combined hvar => .pure ⟨hvar, (List.append_nil _).symm⟩
      | cons node rest ih =>
        intro combined hvar
        rw [List.foldlM_cons]
        refine (looks_appendDeclarators hvar node).bind fun made ⟨hmade, hmarks⟩ => ?_
        refine (ih made hmade).mono fun last ⟨hlast, hall⟩ => ⟨hlast, ?_⟩
        rw [hall, hmarks, marksOf_cons, List.append_assoc]
    refine (looks_expectVar first).bind fun _ hfirst => ?_
    refine (hfold first hfirst).bind fun combined ⟨hvar, hmarks⟩ => .pure ?_
    have hflags : ∀ children : List Node,
        marksOf (children.map fun child => { child with ownsSemicolon := false }) =
          marksOf children := by
      intro children
      rw [marksOf, List.flatMap_map]
      exact List.flatMap_congr fun child _ => child.marks_flag false
    have hleaf := NodeKind.isLeaf_of_isVar hvar
    show Node.marks _ = _
    rw [Node.marks_mk hleaf, hflags, ← Node.marks_of_kind hleaf, hmarks]
    rfl

/-- Declarations that stand in front of a loop are its first clause. -/
theorem adds_declaringLoop {loop : LoopFragment} {declarations : List StatementFragment}
    {first test update body : List Leaf} (hfirst : Adds scope first (declarations.forM (·.build)))
    (hinit : loop.init = none) (htest : AddsOptional scope test loop.test)
    (hupdate : AddsOptional scope update loop.update) (hbody : Adds scope body loop.body.build)
    (hkind : loop.kind = .classic ∨ test = []) :
    AddsNode scope (first ++ (test ++ (update ++ body))) (declaringLoop loop declarations) := by
  refine .after (.note _) fun _ _ => .after (.rangeSpan _ _) fun span _ => ?_
  refine .after (.within hfirst.below) fun collected ⟨_, hshows⟩ => ?_
  refine .after (looks_combineDeclarations _) fun combined hcombined => ?_
  refine adds_forLoop (fun placeholder => ?_) htest hupdate hbody hkind
  cases combined with
  | some node =>
    refine .attach ?_
    rw [Node.Shows, hcombined]
    exact hshows
  | none =>
    rw [hcombined] at hshows
    cases hshows
    exact adds_clause (hinit ▸ rfl) placeholder

/-! ## Blocks -/

/-- Braces are no leaf. -/
theorem adds_bracedBlock {statements : List StatementFragment}
    (h : Adds scope leaves (statements.forM (·.build))) :
    AddsNode scope leaves (bracedBlock range statements) := by
  refine .after (.rangeSpan _ _) fun _ _ => .after (.findAtOrAfter _ _ _ _) fun lbrace _ => ?_
  refine .after (.findEndingAt _ _ _ _) fun rbrace _ => .after (.mergeSpans _ _) fun span _ => ?_
  exact h.enter rfl rfl

/-! ## Branching statements -/

variable {test : Fragment} {body : BlockFragment}

/-- The test is shown first, then the two branches. -/
theorem adds_ifElse {fail : Option BlockFragment} {further : List Leaf}
    (htest : AddsNode scope leaves test.build) (hpass : Adds scope others body.build)
    (hfail : ∀ block ∈ fail, Adds scope further block.build) (hnone : fail = none → further = []) :
    AddsNode scope (leaves ++ (others ++ further)) (ifElse range test body fail) := by
  refine .after (.rangeSpan _ _) fun span _ => .after (.find _ _ _ _) fun lparen _ => ?_
  refine .after (.find _ _ _ _) fun rparen _ => ?_
  refine Adds.enter (htest.adds.andThen (hpass.andThen ?_)) rfl rfl
  cases fail with
  | some block => exact (hfail block rfl).thenSilently (.expectChildren 3)
  | none =>
    rw [hnone rfl]
    refine fun children => Gives.getStack.bind fun stack after ⟨hafter, _⟩ => ?_
    subst hafter
    exact ((Adds.attachBare rfl rfl).adds.thenSilently (.expectChildren 3)) _

/-- The clauses are shown behind what is switched on. -/
theorem adds_switch {cases : List (Range × Recover Unit)} (htest : AddsNode scope leaves test.build)
    (hcases : Adds scope others (cases.forM (·.2))) :
    AddsNode scope (leaves ++ others) (switch range test cases) := by
  refine .after (.rangeSpan _ _) fun span _ => .after (.find _ _ _ _) fun lparen _ => ?_
  refine .after (.find _ _ _ _) fun rparen _ => .after (.find _ _ _ _) fun lbrace _ => ?_
  refine .after (.findEndingAt _ _ _ _) fun rbrace _ => ?_
  exact (htest.adds.andThen hcases).enter rfl rfl

/-- A clause shows its test, if it has one, and then its statements. -/
theorem adds_caseNode {clause : CaseFragment} (htest : AddsOptional scope leaves clause.test)
    (hstatements : Adds scope others (clause.statements.forM (·.build))) {kind : NodeKind}
    (colon : Symbol) (hkind : kind.isLeaf = false) :
    AddsNode scope (leaves ++ others) (caseNode clause kind colon) := by
  refine .after (.rangeSpan _ _) fun part _ => .after (.mergeSpans _ _) fun span _ => ?_
  exact (htest.adds.andThen hstatements).enter hkind rfl

/-- Whether a clause is the default depends on its test alone. -/
theorem adds_switchCase {clause : CaseFragment} (htest : AddsOptional scope leaves clause.test)
    (hstatements : Adds scope others (clause.statements.forM (·.build))) :
    AddsNode scope (leaves ++ others) (switchCase clause) := by
  rw [switchCase]
  split
  · exact .after (.find _ _ _ _) fun colon _ => adds_caseNode htest hstatements colon rfl
  · exact .after (.find _ _ _ _) fun colon _ => adds_caseNode htest hstatements colon rfl

/-- The test stands in front of the body. -/
theorem adds_whileLoop (htest : AddsNode scope leaves test.build)
    (hbody : Adds scope others body.build) :
    AddsNode scope (leaves ++ others) (whileLoop range test body) := by
  refine .after (.rangeSpan _ _) fun span _ => .after (.find _ _ _ _) fun lparen _ => ?_
  refine .after (.find _ _ _ _) fun rparen _ => ?_
  exact (htest.adds.andThen hbody).enter rfl rfl

/-- A node keeps its marks when it gets its semicolon. -/
theorem adds_flagged {action : Recover Node} {flag : Node → Recover Bool}
    (h : Looks scope action (·.Shows scope.source leaves))
    (hflag : ∀ node, Looks scope (flag node) fun _ => True) :
    AddsNode scope leaves (do
      let node ← action
      attach { node with ownsSemicolon := ← flag node }) := by
  refine .after h fun node hnode => .after (hflag node) fun owns _ => .attach ?_
  rw [Node.Shows, Node.marks_flag]
  exact hnode

/-- The body stands in front of the test. -/
theorem adds_doLoop (htest : AddsNode scope leaves test.build)
    (hbody : Adds scope others body.build) :
    AddsNode scope (others ++ leaves) (doLoop range test body) := by
  refine .after (.rangeSpan _ _) fun span _ => .after (.find _ _ _ _) fun lparen _ => ?_
  refine .after (.find _ _ _ _) fun rparen _ => ?_
  exact adds_flagged ((hbody.andThen htest.adds).within rfl rfl) fun _ => .endsWithSemicolon _

/-- The object stands in front of the body. -/
theorem adds_withScope (htest : AddsNode scope leaves test.build)
    (hbody : Adds scope others body.build) :
    AddsNode scope (leaves ++ others) (withScope range test body) := by
  refine .after (.rangeSpan _ _) fun span _ => .after (.find _ _ _ _) fun lparen _ => ?_
  refine .after (.find _ _ _ _) fun rparen _ => ?_
  exact (htest.adds.andThen hbody).enter rfl rfl

/-! ## Plain statements -/

/-- A semicolon changes the flags of a node, but not what it shows. -/
theorem looks_withSemicolon {node : Node} (finish : Nat) (h : node.Shows scope.source leaves) :
    Looks scope (withSemicolon node finish) (·.Shows scope.source leaves) := by
  refine (Looks.terminates _ _).bind fun owns _ => .pure ?_
  rw [Node.Shows, Node.marks_flag]
  exact h

/-- A statement shows what its expression does. -/
theorem adds_expressionStatement {expression : Fragment}
    (h : AddsNode scope leaves expression.build) :
    AddsNode scope leaves (expressionStatement expression) := by
  refine fun children => h.andThen fun node hnode => Gives.getStack.bind ?_
  rintro stack _ ⟨rfl, hstack⟩
  have hlast : stack.lastChild? = some node := by
    show stack.children.getLast? = some node
    rw [hstack, List.getLast?_concat]
  rw [hlast]
  refine (looks_withSemicolon _ hnode).andThen fun statement hstatement => ?_
  refine (Gives.replaceLast _ List.getLast?_concat).mono fun _ after hafter => ?_
  rw [List.dropLast_concat] at hafter
  exact ⟨statement, hafter, hstatement⟩

/-- Nothing is shown by an empty statement. -/
theorem adds_emptyStatement : AddsNode scope [] (emptyStatement range) :=
  .after (.rangeSpan _ _) fun _ _ => Adds.attachBare rfl rfl

/-- The keyword is no leaf, the value is shown. -/
theorem adds_throwStatement {value : Fragment} (h : AddsNode scope leaves value.build) :
    AddsNode scope leaves (throwStatement range value) := by
  refine .after (.rangeSpan _ _) fun span _ => ?_
  refine .after (h.adds.within rfl rfl) fun node hnode => ?_
  exact .attached (looks_withSemicolon _ hnode)

/-- A return that the engine has added is recovered as its value alone. -/
theorem adds_returnStatement {value : Option Fragment} (isGenerated : Bool)
    (h : AddsOptional scope leaves value) :
    Adds scope leaves (returnStatement range value isGenerated) := by
  unfold returnStatement
  split
  · exact h.adds
  · refine .after (.rangeSpan _ _) fun span _ => ?_
    refine .after (Adds.within ?_ rfl rfl) fun node hnode =>
      (Appends.attached (looks_withSemicolon _ hnode)).adds
    cases value with
    | some part => exact Appends.adds h
    | none =>
      cases h
      exact (Adds.attachBare rfl rfl).adds

/-- The label that a jump names is a symbol of its node and no leaf. -/
theorem adds_jump (kind : JumpKind) (label : Option String) :
    AddsNode scope [] (jump range kind label) := by
  refine .after (.rangeSpan _ _) fun span _ => .after (looks_jumpLabel _ label) fun symbol _ => ?_
  refine .after (.endsWithSemicolon _) fun owns _ => Adds.attachBare ?_ rfl
  cases kind <;> rfl

/-- The label is a leaf in front of the statement. -/
theorem adds_labelled {label : String} (hbody : Adds scope others body.build) :
    AddsNode scope (.label range.start label :: others) (labelled range label body) := by
  refine .after (.rangeSpan _ _) fun span _ => .after (.find _ _ _ _) fun colon _ => ?_
  refine .after (adds_identifier _ _ _) fun name hname => ?_
  exact Adds.enter ((Appends.attach hname).adds.andThen hbody) rfl rfl

/-! ## `try` statements -/

/-- The exception is a leaf in front of the body. -/
theorem adds_catchClause {exception : Ident} (hbody : Adds scope others body.build) :
    AddsNode scope (exception.leaf :: others) (catchClause range exception body) :=
  .after (.rangeSpan _ _) fun _ _ =>
    ((adds_ident exception).adds.andThen hbody).enter rfl rfl

/-- Body, handler and `finally` block in the order of the text. -/
theorem adds_finallyLast {finalizer : Option BlockFragment} {body handler block : Node} :
    Gives scope [body, handler, block] (finallyLast finalizer) fun _ after =>
      marksOf after = body.marks ++ (handler.marks ++ block.marks) := by
  have hsame : marksOf [body, handler, block] = body.marks ++ (handler.marks ++ block.marks) := by
    rw [marksOf_cons, marksOf_cons, marksOf_singleton]
  cases finalizer with
  | none => exact .pure hsame
  | some finalizer =>
    refine Gives.getStack.bind ?_
    rintro stack _ ⟨rfl, hstack⟩
    rw [hstack]
    refine (Looks.findWord _ _ _ _).andThen fun keyword _ => ?_
    refine (Looks.mergeSpans _ _).andThen fun span _ => ?_
    refine (Gives.wrapThird _).mono fun _ after hafter => ?_
    rw [hafter, marksOf_cons, marksOf_cons, marksOf_singleton, Node.addChild, Node.leaf,
      Node.marks_mk rfl, List.nil_append, marksOf_singleton]

/-- A try without a finalizer shows nothing there. -/
theorem adds_finallyBlock {finalizer : Option BlockFragment} {further : List Leaf} (last : Nat)
    (h : ∀ block ∈ finalizer, AddsNode scope further block.build)
    (hnone : finalizer = none → further = []) :
    AddsNode scope further (finallyBlock finalizer last) := by
  cases finalizer with
  | some block => exact h block rfl
  | none =>
    rw [hnone rfl]
    exact Adds.attachBare rfl rfl

/-- The `finally` block is recovered first and shown last. -/
theorem shows_tryEnd {finalizer : Option BlockFragment} {further : List Leaf}
    {block body handler : Node} (hblock : block.Shows scope.source further)
    (hbody : body.Shows scope.source leaves) (hhandler : handler.Shows scope.source others) :
    Gives scope [block, body, handler] (tryEnd finalizer) fun _ after =>
      Shows scope.source (leaves ++ (others ++ further)) (marksOf after) := by
  refine (Gives.expectChildren 3).bind ?_
  rintro _ _ ⟨rfl, -⟩
  refine (Gives.reorder _).bind ?_
  rintro _ _ rfl
  refine adds_finallyLast.mono fun _ after hafter => ?_
  rw [hafter]
  exact hbody.append (hhandler.append hblock)

/-- A `try` statement has one handler, or a placeholder in its place. -/
theorem adds_tryCatch {catches : List (Recover Unit)} {finalizer : Option BlockFragment}
    {further : List Leaf} (hbody : AddsNode scope leaves body.build)
    (hcatch : ∀ handler, catches = [handler] → AddsNode scope others handler)
    (hnone : catches = [] → others = [])
    (hfinally : ∀ block ∈ finalizer, AddsNode scope further block.build)
    (habsent : finalizer = none → further = []) :
    AddsNode scope (leaves ++ (others ++ further)) (tryCatch range body catches finalizer) := by
  rw [tryCatch]
  refine .after (.note _) fun _ _ => .after (.rangeSpan _ _) fun span _ => ?_
  rcases catches with _ | ⟨handler, _ | ⟨_, _⟩⟩
  · rw [if_neg (show ¬1 < [].length from Nat.not_lt_zero 1), hnone rfl]
    refine .attached (Gives.shownWithin ?_ rfl rfl)
    refine (adds_finallyBlock _ hfinally habsent).andThen fun block hblock => ?_
    refine hbody.andThen fun first hfirst => ?_
    have hforM : ([] : List (Recover Unit)).forM id = Pure.pure () := rfl
    rw [hforM, pure_bind]
    refine Gives.getStack.bind ?_
    rintro stack _ ⟨rfl, -⟩
    exact Appends.andThen (Adds.attachBare rfl rfl) fun handler hhandler =>
      shows_tryEnd hblock hfirst hhandler
  · rw [if_neg (show ¬1 < [handler].length from Nat.lt_irrefl 1)]
    refine .attached (Gives.shownWithin ?_ rfl rfl)
    refine (adds_finallyBlock _ hfinally habsent).andThen fun block hblock => ?_
    refine hbody.andThen fun first hfirst => ?_
    have hforM : [handler].forM id = handler := bind_pure handler
    rw [hforM]
    exact (hcatch handler rfl).andThen fun handler hhandler =>
      shows_tryEnd hblock hfirst hhandler
  · rw [if_pos (by simp only [List.length_cons]; omega)]
    exact fun _ => .throw

end Rule

end Concretion
