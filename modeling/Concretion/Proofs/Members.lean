import Concretion.Proofs.Growth.Lookups
import Concretion.Proofs.Places
import Concretion.Recovery.Rule.Block
import Concretion.Recovery.Rule.Leaf
import Concretion.Recovery.Rule.Member
import Mathlib.Data.List.Forall2

/-!
# Members in their places

A member of an object literal or of a class stands in a place of its own, and so does the second
accessor of a member that has two. The rules for members attach one node for each place, if the
parts of the member fill it.

- `FunctionFragment.FitsIn`, `MemberFragment.FitsIn`: the parts lie in the places.
- `Rule.lands_functionNode`: the name, the parameters and the body of a function.
- `Node.Takes`: a node begins where a place does, and lies in it.
- `Rule.lands_member`, `Rule.lands_members`: one node for each place.
-/

namespace Concretion

open Recover

/-! ## Searches in a window -/

namespace Source

variable {source : Source} {context token : String} {start finish offset : Nat}

theorem findLastWord_later {word : String} {later : Nat} (h : start ≤ later) :
    source.findLastWord word later finish =
      (source.findLastWord word start finish).filter (later ≤ ·) :=
  Search.lastFrom_later h _

end Source

namespace Recover.Looks

variable {scope : Scope} {context : String} {token : Token} {start finish : Nat}

theorem settleBy {found : Except Missing Nat} {fallback : Nat} {result : Nat → Prop}
    (hfound : ∀ offset, found = .ok offset → result offset) (hfallback : result fallback) :
    Looks scope (Recover.settle found fallback) result := by
  cases found with
  | ok offset => exact .pure (hfound offset rfl)
  | error missing => exact (report missing).bind fun _ _ => .pure hfallback

theorem symbolSpan (token : Token) (start : Nat) :
    Looks scope (Recover.symbolAt token start) fun symbol =>
      symbol.span = ⟨start, start + max token.length 1 - 1⟩ := by
  refine (spanBetween _ _).bind fun span hspan => (intern _).bind fun _ _ => .pure ?_
  exact hspan

/-- A token of a single byte that is looked for in a place is put there. -/
theorem findIn {place : Range} (hlength : token.length = 1) (hstart : place.start ≤ start)
    (hlt : start < place.finish) (hfinish : finish ≤ place.finish) :
    Looks scope (Recover.find token context start finish)
      fun symbol => symbol.span.LiesIn place := by
  refine Looks.source.bind fun text htext => ?_
  subst htext
  have hsettle : Looks scope
      (Recover.settle (scope.source.locate context token.text start finish) start)
      fun offset => place.start ≤ offset ∧ offset < place.finish := by
    refine settleBy (fun offset hfound => ?_) ⟨hstart, hlt⟩
    obtain ⟨hlow, hhigh⟩ := Source.find_bounds (Source.locate_eq_ok_iff.1 hfound)
    omega
  refine hsettle.bind fun offset ⟨hlow, hhigh⟩ => (symbolSpan _ _).mono fun symbol hspan => ?_
  rw [hspan, hlength]
  exact .point hlow hhigh

theorem findLastIn {place : Range} (hlength : token.length = 1) (hstart : place.start ≤ start)
    (hlt : start < finish) (hfinish : finish ≤ place.finish) :
    Looks scope (Recover.findLast token context start finish)
      fun symbol => symbol.span.LiesIn place := by
  refine Looks.source.bind fun text htext => ?_
  subst htext
  have hsettle : Looks scope
      (Recover.settle (scope.source.locateLast context token.text start finish)
        (max (finish - token.length) start))
      fun offset => place.start ≤ offset ∧ offset < place.finish := by
    refine settleBy (fun offset hfound => ?_) ?_
    · obtain ⟨hlow, hhigh⟩ := Source.findLast_bounds (Source.locateLast_eq_ok_iff.1 hfound)
      omega
    · rw [hlength]
      omega
  refine hsettle.bind fun offset ⟨hlow, hhigh⟩ => (symbolSpan _ _).mono fun symbol hspan => ?_
  rw [hspan, hlength]
  exact .point hlow hhigh

theorem findEndingIn {place : Range} (hlength : token.length = 1) (hstart : place.start ≤ start)
    (hlt : start < finish) (hfinish : finish ≤ place.finish) :
    Looks scope (Recover.findEndingAt token context start finish)
      fun symbol => symbol.span.LiesIn place := by
  refine Looks.source.bind fun text _ => ?_
  split
  · refine (symbolSpan _ _).mono fun symbol hspan => ?_
    rw [hspan, hlength]
    exact .point (by omega) (by omega)
  · exact findLastIn hlength hstart hlt hfinish

theorem mergeIn {a b : Span} {place : Range} (ha : a.LiesIn place) (hb : b.LiesIn place) :
    Looks scope (Recover.mergeSpans a b) fun span => span.LiesIn place := by
  refine (orFail _).mono fun span hspan => ?_
  cases hmerge : a.merge b with
  | error ends =>
    rw [hmerge] at hspan
    cases hspan
  | ok merged =>
    rw [hmerge] at hspan
    cases hspan
    exact ha.merge hb hmerge

theorem rangeIn {place : Range} (hstart : place.start ≤ start) (hlt : start < place.finish)
    (hfinish : finish ≤ place.finish) :
    Looks scope (Recover.rangeSpan start finish)
      fun span => span.LiesIn place ∧ span.start = start := by
  refine (rangeSpan start finish).mono fun span hspan => ?_
  rw [Source.eq_of_rangeSpan hspan]
  exact ⟨.ofBounds hstart hlt hfinish, rfl⟩

theorem identifierIn {range place : Range} {name : String} (h : range.Inside place) :
    Looks scope (Recover.identifier range.start range.finish name)
      fun node => node.span.LiesIn place := by
  refine (identifier range.start range.finish name).mono ?_
  rintro node ⟨span, hspan, rfl⟩
  rw [Source.eq_of_rangeSpan hspan]
  exact h.liesIn

end Recover.Looks

/-! ## Parts in a place -/

namespace Rule

variable {scope : Scope} {place : Range}

theorem fills_ident {name : Ident} (h : name.range.Inside place) :
    Fills scope place (Rule.ident name) := by
  refine .look Looks.takeSkip ?_
  rintro _ rfl
  exact .attached (Looks.identifierIn h)

/-- A block that begins with a brace and is longer than that. -/
theorem fills_bracedBlock {range : Range} {statements : List StatementFragment}
    (h : range.Inside place) (hlength : range.start + 1 < range.finish)
    (hbrace : scope.source.slice range.start (range.start + 1) = some "\x7b")
    (hstatements : ∀ statement ∈ statements, Fills scope place statement.build) :
    Fills scope place (Rule.bracedBlock range statements) := by
  obtain ⟨hstart, hnonempty, hfinish⟩ := h
  have hlbrace : Looks scope (findAtOrAfter .leftBrace "Statements" range.start range.finish)
      fun symbol => symbol.span = Span.point range.start := by
    refine Looks.source.bind fun text htext => ?_
    subst htext
    have hfound : (scope.source.slice range.start (range.start + Token.leftBrace.length) ==
        some Token.leftBrace.text) = true := beq_iff_eq.2 hbrace
    rw [if_pos hfound]
    exact Looks.symbolSpan _ _
  refine .look (Looks.rangeSpan _ _) fun _ _ => .look hlbrace fun lbrace hopening => ?_
  have hleft : lbrace.span.LiesIn place := by
    rw [hopening]
    exact .point hstart (by omega)
  have hbehind : lbrace.span.last + 1 = range.start + 1 := by rw [hopening]; rfl
  rw [hbehind]
  refine .look (Looks.findEndingIn rfl (by omega) hlength hfinish) fun rbrace hright => ?_
  exact .look (Looks.mergeIn hleft hright) fun span hspan => .enter hspan (.forM hstatements)

end Rule

/-! ## Functions in a place -/

/-- A part that lies in the place. -/
structure Fragment.FitsIn (scope : Scope) (place : Range) (fragment : Fragment) : Prop where
  finish : fragment.range.finish ≤ place.finish
  build : Fills scope place fragment.build

/-- Where the name of a function ends, or the key of the member that it is the value of. -/
def FunctionFragment.nameEnd (function : FunctionFragment) (member : Option MemberFragment) : Nat :=
  match member with
  | some member => member.key.range.finish
  | none => function.name.range.finish

/-- Of a function that is no arrow function the name, the parameters, their default values and the
body lie in the place. The body begins behind the name or the key. The name of a method is not
recovered, so it need not be written. -/
structure FunctionFragment.FitsIn (scope : Scope) (place : Range) (member : Option MemberFragment)
    (function : FunctionFragment) : Prop where
  kind : function.kind ≠ .arrow
  finish : max function.range.finish function.body.range.finish ≤ place.finish
  nameStart : place.start ≤ function.name.range.start
  name : member = none → function.name.range.Inside place
  nameEnd : place.start ≤ function.nameEnd member
  bodyStart : function.nameEnd member < function.bodyStart
  bodyEnd : function.bodyStart ≤ place.finish
  parameters : ∀ parameter ∈ function.parameters, parameter.range.Inside place
  defaults : ∀ entry ∈ function.defaults, entry.2.FitsIn scope place
  body : Fills scope place function.body.build

namespace Rule

variable {scope : Scope} {place : Range} {function : FunctionFragment}
  {member : Option MemberFragment}

/-- The parentheses of the parameters are between the name and the body. -/
theorem looks_parensIn {nameEnd : Nat} (h : nameEnd < function.bodyStart) :
    Looks scope (functionParens function nameEnd) fun parens =>
      nameEnd ≤ parens.1 ∧ parens.1 ≤ parens.2 ∧ parens.2 < function.bodyStart := by
  refine Looks.source.bind fun text htext => ?_
  subst htext
  have hlparen : Looks scope (settle
      (scope.source.locate "Parameters" "(" nameEnd function.bodyStart) nameEnd)
      fun lparen => nameEnd ≤ lparen ∧ lparen < function.bodyStart := by
    refine Looks.settleBy (fun offset hfound => ?_) ⟨Nat.le_refl _, h⟩
    exact Source.find_bounds (Source.locate_eq_ok_iff.1 hfound)
  refine hlparen.bind fun lparen ⟨hlow, hhigh⟩ => ?_
  have hrparen : Looks scope (settle
      (scope.source.locateLast "Parameters" ")" (lparen + 1) function.bodyStart)
      (max (function.bodyStart - 1) lparen))
      fun rparen => lparen ≤ rparen ∧ rparen < function.bodyStart := by
    refine Looks.settleBy (fun offset hfound => ?_) ⟨Nat.le_max_right _ _, by omega⟩
    obtain ⟨hbehind, hbefore⟩ := Source.findLast_bounds (Source.locateLast_eq_ok_iff.1 hfound)
    omega
  exact hrparen.bind fun rparen ⟨hbehind, hbefore⟩ => .pure ⟨hlow, hbehind, hbefore⟩

theorem looks_parameterListIn (h : function.FitsIn scope place member) :
    Looks scope (parameterList function (function.nameEnd member)) fun node =>
      ∃ kind span, node = .leaf kind span ∧ span.LiesIn place := by
  have hkind : (function.kind == .arrow) = false := beq_eq_false_iff_ne.2 h.kind
  have hstart := h.nameEnd
  have hfinish := h.bodyEnd
  rw [parameterList, hkind]
  refine (looks_parensIn h.bodyStart).bind fun parens hparens => ?_
  obtain ⟨lparen, rparen⟩ := parens
  obtain ⟨hlow, hbetween, hhigh⟩ := hparens
  refine (Looks.symbolSpan _ _).bind fun opening hopening => ?_
  refine (Looks.symbolSpan _ _).bind fun closing hclosing => ?_
  have hleft : opening.span.LiesIn place := by
    rw [hopening]
    exact .point (by dsimp only at hlow; omega) (by dsimp only at hbetween hhigh; omega)
  have hright : closing.span.LiesIn place := by
    rw [hclosing]
    exact .point (by dsimp only at hlow hbetween; omega) (by dsimp only at hhigh; omega)
  exact (Looks.mergeIn hleft hright).bind fun span hspan => .pure ⟨_, span, rfl, hspan⟩

theorem fills_restElement {parameter : Ident} (h : parameter.range.Inside place)
    {ellipsis : Option Symbol}
    (hellipsis : ∀ symbol ∈ ellipsis,
      place.start ≤ symbol.span.start ∧ symbol.span.start < place.finish) :
    Fills scope place (restElement parameter ellipsis) := by
  obtain ⟨hstart, hlt, hfinish⟩ := h
  have hbounds : place.start ≤ (ellipsis.map (·.span.start)).getD parameter.range.start ∧
      (ellipsis.map (·.span.start)).getD parameter.range.start < place.finish := by
    cases ellipsis with
    | none => exact ⟨hstart, Nat.lt_of_lt_of_le hlt hfinish⟩
    | some symbol => exact hellipsis symbol rfl
  refine .look (Looks.rangeIn hbounds.1 hbounds.2 hfinish) fun span ⟨hspan, _⟩ => ?_
  exact .look (Looks.identifier _ _ _) fun name _ => .attach hspan

theorem fills_restParameter {parameter : Ident} (h : parameter.range.Inside place) :
    Fills scope place (restParameter parameter) := by
  rw [restParameter]
  refine .look Looks.source fun text htext => .gapStart fun gap hgap => ?_
  subst htext
  have hellipsis : Looks scope
      (settle? (scope.source.locateLast "RestElement" "..." gap parameter.range.start))
      fun found => ∀ offset ∈ found, place.start ≤ offset ∧ offset < place.finish := by
    cases hfound : scope.source.locateLast "RestElement" "..." gap parameter.range.start with
    | error missing =>
      refine (Looks.report missing).bind fun _ _ => .pure ?_
      rintro _ ⟨⟩
    | ok offset =>
      refine .pure ?_
      rintro _ ⟨⟩
      obtain ⟨hlow, hhigh⟩ := Source.findLast_bounds (Source.locateLast_eq_ok_iff.1 hfound)
      obtain ⟨hstart, hlt, hfinish⟩ := h
      omega
  refine .look hellipsis fun found hfound => ?_
  -- without the dots the parameter begins at its name
  cases found with
  | none =>
    refine fills_restElement h ?_
    rintro _ ⟨⟩
  | some offset =>
    refine .look (Looks.symbolSpan _ _) fun symbol hspan => fills_restElement h ?_
    rintro _ ⟨⟩
    rw [hspan]
    exact hfound offset rfl

theorem fills_parameter (h : function.FitsIn scope place member) {parameter : Ident}
    (hparameter : parameter ∈ function.parameters) :
    Fills scope place (Rule.parameter function parameter) := by
  have hinside := h.parameters parameter hparameter
  have hname : Looks scope
      (identifier parameter.range.start parameter.range.finish parameter.name)
      fun node => node.span.LiesIn place := Looks.identifierIn hinside
  have hlt : parameter.range.start < place.finish :=
    Nat.lt_of_lt_of_le hinside.nonempty hinside.finish
  refine parameter_cases (fun _ => fills_restParameter hinside) (fun value hdefault => ?_)
    (.look (Looks.note _) fun _ _ => .attached hname) (.attached hname)
  have hvalue : value.FitsIn scope place := h.defaults (parameter.name, value) hdefault
  refine .look (Looks.find _ _ _ _) fun equal _ => ?_
  refine .look (Looks.rangeIn hinside.start hlt hvalue.finish) fun span ⟨hspan, _⟩ => ?_
  exact .look hname fun node hnode => .enter hspan ((Fills.attach hnode).andThen hvalue.build)

theorem fills_parameters (h : function.FitsIn scope place member) :
    Fills scope place (parameters function (function.nameEnd member)) := by
  refine .look (looks_parameterListIn h) ?_
  rintro _ ⟨kind, span, rfl, hspan⟩
  exact .enter hspan (.forM fun parameter hparameter => fills_parameter h hparameter)

/-- The nodes that a computation attaches lie in the place, and so does the gap behind them. -/
def Names (scope : Scope) (place : Range) (before : Stack) (action : Recover Unit) : Prop :=
  Lands scope before action fun _ after => place.start ≤ after.gapStart ∧
    ∃ nodes, after = before.attachAll nodes ∧ ∀ node ∈ nodes, node.span.LiesIn place

theorem names_of_fills {before : Stack} {action : Recover Unit} (h : Fills scope place action)
    (hgap : place.start ≤ before.gapStart) : Names scope place before action := by
  refine (h before hgap).mono ?_
  rintro _ _ ⟨nodes, rfl, hnodes⟩
  exact ⟨Stack.le_gapStart_attachAll hgap hnodes, nodes, rfl, hnodes⟩

/-- A function that is no value of a member has a node for its name. -/
theorem names_functionName (h : function.FitsIn scope place none) (before : Stack) :
    Names scope place before (functionName function none) := by
  have hname := h.name rfl
  have hkind : (function.kind == .arrow) = false := beq_eq_false_iff_ne.2 h.kind
  have hattach : ∀ node : Node, node.span.LiesIn place →
      Names scope place before (attach node) := by
    intro node hnode
    exact .attach ⟨(Stack.gapStart_attach hnode).1, [node], rfl, List.forall_mem_singleton.2 hnode⟩
  unfold functionName
  dsimp only
  rw [hkind, if_neg Bool.false_ne_true]
  split
  · exact hattach _ (.point hname.start (Nat.lt_of_lt_of_le hname.nonempty hname.finish))
  · exact .look (Looks.identifierIn hname) fun node hnode => hattach node hnode

/-- What a function attaches to its node lies in the place, provided that its name does. -/
theorem lands_functionNode {before : Stack} {begins : Nat → Prop}
    (h : function.FitsIn scope place member)
    (hstart : Looks scope (functionStart function member) begins)
    (hname : ∀ span : Span, begins span.start →
      Names scope place
        (before.push (.leaf (functionNodeKind function (member.any (·.isStatic))) span))
        (functionName function member)) :
    Lands scope before (functionNode function member) fun made after => after = before ∧
      ∃ start nodes, begins start ∧
        (Node.branch (functionNodeKind function (member.any (·.isStatic)))
          (Span.ofBounds start (max function.range.finish function.body.range.finish))
          nodes).cover = .ok made ∧
        ∀ node ∈ nodes, node.span.LiesIn place := by
  refine .look hstart fun start hbegins => .look (Looks.rangeSpan _ _) fun span hspan => ?_
  obtain rfl := Source.eq_of_rangeSpan hspan
  refine Lands.mono (.within ?_) fun made after ⟨hsame, nodes, hcover, hnodes⟩ =>
    ⟨hsame, start, nodes, hbegins, hcover, hnodes⟩
  refine (hname _ hbegins).bind ?_
  rintro _ _ ⟨hgap, names, rfl, hnames⟩
  refine ((fills_parameters h).andThen h.body _ hgap).mono ?_
  rintro _ _ ⟨others, rfl, hothers⟩
  exact ⟨names ++ others, (Stack.attachAll_append _ names others).symm,
    List.forall_mem_append.2 ⟨hnames, hothers⟩⟩

end Rule

/-! ## Members in their places -/

/-- The node begins where the place does, lies in the place, and is no placeholder. -/
structure Node.Takes (node : Node) (place : Range) : Prop where
  liesIn : node.span.LiesIn place
  start : node.start = place.start
  solid : node.isPlaceholder = false

/-- A node that is opened at the start of a place, and then made to cover what is attached to it. -/
theorem Node.takes_of_cover {kind : NodeKind} {span : Span} {nodes : List Node} {made : Node}
    {place : Range} (h : (branch kind span nodes).cover = .ok made) (hspan : span.LiesIn place)
    (hstart : span.start = place.start) (hsolid : kind.isPlaceholder = false)
    (hnodes : ∀ node ∈ nodes, node.span.LiesIn place) : made.Takes place := by
  obtain ⟨hkind, -, hmade, hle⟩ := Node.liesIn_of_cover h hspan hnodes
  constructor
  · exact hmade
  · exact Nat.le_antisymm (hstart ▸ hle) hmade.start
  · rw [isPlaceholder, hkind]
    exact hsolid

theorem Accessor.isPlaceholder_nodeKind (kind : Accessor) :
    kind.nodeKind.isPlaceholder = false := by
  cases kind <;> rfl

namespace MemberFragment

/-- The place begins where the member does, and the key lies in it, with its brackets if it is
computed. -/
structure StandsAt (scope : Scope) (place : Range) (member : MemberFragment) : Prop where
  start : place.start = member.range.start
  finish : member.range.finish ≤ place.finish
  keyRange : member.key.range.Inside place
  bracketed : member.isComputed = true →
    member.range.start < member.key.range.start ∧ member.key.range.finish < place.finish
  key : Fills scope place member.key.build

/-- The parts of the member lie in its places. There is one place, or a second one behind it for the
second accessor; that place begins at the last keyword in front of the name of the accessor, or at
the name if there is no keyword. -/
inductive FitsIn (scope : Scope) (member : MemberFragment) : List Range → Prop where
  | expression {place : Range} {value : Fragment} (hgetter : member.getter = none)
      (hsetter : member.setter = none) (hvalue : member.value = some (.expression value))
      (hplace : member.StandsAt scope place) (hfits : value.FitsIn scope place) :
      FitsIn scope member [place]
  | method {place : Range} {function : FunctionFragment} (hgetter : member.getter = none)
      (hsetter : member.setter = none) (hvalue : member.value = some (.method function))
      (hplace : member.StandsAt scope place) (hfits : function.FitsIn scope place (some member)) :
      FitsIn scope member [place]
  | accessor {place : Range} {function : FunctionFragment} {kind : Accessor}
      (haccessors : member.accessors = [(function, kind)]) (hplace : member.StandsAt scope place)
      (hfits : function.FitsIn scope place none) : FitsIn scope member [place]
  | accessors {place other : Range} {first second : FunctionFragment} {kind otherKind : Accessor}
      (haccessors : member.accessors = [(first, kind), (second, otherKind)])
      (hplace : member.StandsAt scope place) (hfirst : first.FitsIn scope place none)
      (hstart : other.start = (scope.source.findLastWord otherKind.keyword place.start
        second.name.range.start).getD second.name.range.start)
      (hbehind : place.finish ≤ other.start) (hsecond : second.FitsIn scope other none) :
      FitsIn scope member [place, other]

end MemberFragment

/-- The getter comes first if its name does. -/
theorem MemberFragment.accessors_of_le {member : MemberFragment} {getter setter : FunctionFragment}
    (hgetter : member.getter = some getter) (hsetter : member.setter = some setter)
    (hle : getter.name.range.start ≤ setter.name.range.start) :
    member.accessors = [(getter, .getter), (setter, .setter)] := by
  rw [accessors, hgetter, hsetter]
  refine List.mergeSort_of_pairwise (List.pairwise_pair.2 ?_)
  exact decide_eq_true hle

namespace Rule

variable {scope : Scope} {place : Range} {member : MemberFragment} {function : FunctionFragment}

theorem fills_key (h : member.StandsAt scope place) : Fills scope place (key member) := by
  unfold key
  split
  · exact h.key
  · next hcomputed =>
    obtain ⟨hbefore, hbehind⟩ := h.bracketed (by simpa using hcomputed)
    have hlow := h.start
    obtain ⟨hstart, hnonempty, hfinish⟩ := h.keyRange
    refine .look (Looks.findLastIn rfl (Nat.le_of_eq hlow) hbefore ?_) fun opening hopening => ?_
    · omega
    refine .look (Looks.findIn rfl ?_ hbehind h.finish) fun closing hclosing => ?_
    · omega
    exact .look (Looks.mergeIn hopening hclosing) fun span hspan => .enter hspan h.key

/-- A node that is opened at the start of a place. -/
theorem lands_enter {kind : NodeKind} {span : Span} {body : Recover Unit}
    (hspan : span.LiesIn place) (hstart : span.start = place.start)
    (hsolid : kind.isPlaceholder = false) (hbody : Fills scope place body) (before : Stack) :
    Lands scope before (enter (.leaf kind span) body) fun _ after =>
      ∃ node, after = before.attach node ∧ node.Takes place := by
  have hgap : place.start ≤ (before.push (.leaf kind span)).gapStart := hspan.start
  refine (Lands.within (hbody _ hgap)).bind ?_
  rintro made _ ⟨rfl, nodes, hcover, hnodes⟩
  exact .attach ⟨made, rfl, Node.takes_of_cover hcover hspan hstart hsolid hnodes⟩

theorem lands_pair {value : Fragment} (hplace : member.StandsAt scope place)
    (hvalue : value.FitsIn scope place) (before : Stack) :
    Lands scope before (pair member value) fun _ after =>
      ∃ node, after = before.attach node ∧ node.Takes place := by
  have hlow := hplace.start
  have hfinish : max member.range.finish value.range.finish ≤ place.finish :=
    Nat.max_le.2 ⟨hplace.finish, hvalue.finish⟩
  have hlt : member.range.start < place.finish := hlow ▸ hplace.keyRange.lt
  refine .look (Looks.rangeIn (Nat.le_of_eq hlow) hlt hfinish) fun span ⟨hspan, hat⟩ => ?_
  split
  · exact lands_enter hspan (hat.trans hlow.symm) rfl hplace.key before
  · refine .look (Looks.find _ _ _ _) fun colon _ => ?_
    have hparts := (fills_key hplace).andThen hvalue.build
    exact lands_enter hspan (hat.trans hlow.symm) rfl hparts before

/-- A method begins where its member does. -/
theorem lands_method (hplace : member.StandsAt scope place)
    (h : function.FitsIn scope place (some member)) (before : Stack) :
    Lands scope before (do attach (← functionNode function (some member))) fun _ after =>
      ∃ node, after = before.attach node ∧ node.Takes place := by
  have hstart : Looks scope (functionStart function (some member))
      fun offset => offset = place.start := by
    refine .pure ?_
    rw [← hplace.start]
    exact Nat.min_eq_left h.nameStart
  refine (lands_functionNode h hstart fun span hspan => ?_).bind ?_
  · exact names_of_fills (fills_key hplace) (Nat.le_of_eq hspan.symm)
  · rintro made _ ⟨rfl, start, nodes, rfl, hcover, hnodes⟩
    have hspan : (Span.ofBounds place.start
        (max function.range.finish function.body.range.finish)).LiesIn place :=
      .ofBounds (Nat.le_refl _) hplace.keyRange.lt h.finish
    have hsolid : (functionNodeKind function member.isStatic).isPlaceholder = false := by
      unfold functionNodeKind
      split <;> rfl
    exact .attach ⟨made, rfl, Node.takes_of_cover hcover hspan rfl hsolid hnodes⟩

/-- Of the function of an accessor the parameters and the body are kept. -/
theorem fills_accessorParts (h : function.FitsIn scope place none) (kind : Accessor) :
    Fills scope place (accessorParts function kind) := by
  intro before hgap
  have hstart : Looks scope (functionStart function none) fun _ => True :=
    looks_functionStart function none
  refine (lands_functionNode h hstart fun span _ => names_functionName h _).bind ?_
  rintro made _ ⟨rfl, start, nodes, -, hcover, hnodes⟩
  obtain ⟨span, rfl⟩ := Node.eq_of_cover hcover
  -- the node of the function itself is dropped, so only what is below it has to lie in the place
  have hkept : ∀ part : Option Node, (∀ node ∈ part, node ∈ nodes) →
      Fills scope place (part.toList.forM attach) := by
    intro part hpart
    refine .forM fun node hnode => .attach (hnodes node (hpart node ?_))
    exact Option.mem_toList.1 hnode
  have hbody : Fills scope place (nodes.reverse.head?.toList.forM attach) := by
    refine hkept _ fun node hnode => ?_
    exact List.mem_reverse.1 (List.mem_of_head? hnode)
  have hparameters : Fills scope place ((nodes.reverse.drop 1).head?.toList.forM attach) := by
    refine hkept _ fun node hnode => ?_
    exact List.mem_reverse.1 (List.mem_of_mem_drop (List.mem_of_head? hnode))
  dsimp only
  split
  · exact hparameters.andThen hbody _ hgap
  · exact hbody _ hgap

/-- The first accessor takes the place of the member, with the key. -/
theorem lands_firstAccessor (hplace : member.StandsAt scope place)
    (h : function.FitsIn scope place none) (kind : Accessor) (before : Stack) :
    Lands scope before (accessor member function kind true) fun _ after =>
      ∃ node, after = before.attach node ∧ node.Takes place := by
  have hlow := hplace.start
  have hfinish : max (max function.range.finish function.body.range.finish) member.range.finish ≤
      place.finish := Nat.max_le.2 ⟨h.finish, hplace.finish⟩
  have hlt : member.range.start < place.finish := hlow ▸ hplace.keyRange.lt
  have hspan : Looks scope
      (rangeSpan member.range.start
        (max (max function.range.finish function.body.range.finish) member.range.finish))
      fun span => span.LiesIn place ∧ span.start = member.range.start :=
    Looks.rangeIn (Nat.le_of_eq hlow) hlt hfinish
  have hrange : Looks scope (accessorRange member function kind true) fun range =>
      range = ⟨member.range.start,
        max (max function.range.finish function.body.range.finish) member.range.finish⟩ := .pure rfl
  refine .look hrange ?_
  rintro _ rfl
  refine .look hspan fun span ⟨hspan, hat⟩ => ?_
  exact lands_enter hspan (hat.trans hlow.symm) kind.isPlaceholder_nodeKind
    ((fills_key hplace).andThen (fills_accessorParts h kind)) before

/-- The second accessor begins at its keyword, which is the last one in front of its name. -/
theorem lands_secondAccessor {first : Range} {kind : Accessor} {before : Stack}
    (hstart : place.start = (scope.source.findLastWord kind.keyword first.start
      function.name.range.start).getD function.name.range.start)
    (hlow : first.start ≤ before.gapStart) (hhigh : before.gapStart ≤ place.start)
    (h : function.FitsIn scope place none) :
    Lands scope before (accessor member function kind false) fun _ after =>
      ∃ node, after = before.attach node ∧ node.Takes place := by
  have hname : function.name.range.Inside place := h.name rfl
  -- from the gap on the same keyword is found as from the first accessor on
  have hkeyword : (scope.source.findLastWord kind.keyword before.gapStart
      function.name.range.start).getD function.name.range.start = place.start := by
    rw [Source.findLastWord_later hlow, hstart]
    cases hfound : scope.source.findLastWord kind.keyword first.start function.name.range.start with
    | none => rfl
    | some offset =>
      have hin : decide (before.gapStart ≤ offset) = true := by
        rw [hfound, Option.getD_some] at hstart
        exact decide_eq_true (hstart ▸ hhigh)
      rw [Option.filter_some, hin]
      rfl
  have hrange : Lands scope before (accessorRange member function kind false)
      fun range after => after = before ∧ range.start = place.start ∧
        range.finish = max function.range.finish function.body.range.finish := by
    refine .look Looks.source fun text htext => .gapStart ?_
    subst htext
    have hsettle : Looks scope (settle (scope.source.locateLastWord "Accessor" kind.keyword
        before.gapStart function.name.range.start) function.name.range.start)
        fun offset => offset = place.start := by
      rw [Source.locateLastWord]
      cases hfound : scope.source.findLastWord kind.keyword before.gapStart
          function.name.range.start with
      | none =>
        rw [hfound, Option.getD_none] at hkeyword
        refine Looks.settleBy ?_ hkeyword
        rintro _ ⟨⟩
      | some offset =>
        rw [hfound, Option.getD_some] at hkeyword
        exact .pure hkeyword
    exact .look hsettle fun offset hoffset => .pure ⟨rfl, hoffset, rfl⟩
  refine hrange.bind ?_
  rintro ⟨start, finish⟩ _ ⟨rfl, hat, hend⟩
  dsimp only at hat hend
  subst hat hend
  have hspan : Looks scope
      (rangeSpan place.start (max function.range.finish function.body.range.finish))
      fun span => span.LiesIn place ∧ span.start = place.start :=
    Looks.rangeIn (Nat.le_refl _) hname.lt h.finish
  refine .look hspan ?_
  rintro span ⟨hlies, hbegin⟩
  have hparts : Fills scope place (do
      attach (← identifier function.name.range.start function.name.range.finish function.name.name)
      accessorParts function kind) :=
    .look (Looks.identifierIn hname) fun name hnode =>
      (Fills.attach hnode).andThen (fills_accessorParts h kind)
  exact lands_enter hlies hbegin kind.isPlaceholder_nodeKind hparts _

/-- The accessors of a member are recovered in the order of their names, and only the first one
owns the key. -/
theorem member_of_accessors (h : member.accessors ≠ []) :
    Rule.member member = member.accessors.zipIdx.forM fun ((function, kind), place) =>
      accessor member function kind (place == 0) := by
  refine if_pos ?_
  by_contra hnone
  rw [Bool.or_eq_true, not_or, Option.not_isSome_iff_eq_none, Option.not_isSome_iff_eq_none]
    at hnone
  refine h ?_
  rw [MemberFragment.accessors, hnone.1, hnone.2]
  exact List.mergeSort_nil

/-- A member has one node for each of its places. -/
theorem lands_member {places : List Range} (h : member.FitsIn scope places) (before : Stack) :
    Lands scope before (Rule.member member) fun _ after =>
      ∃ nodes, after = before.attachAll nodes ∧ List.Forall₂ Node.Takes nodes places := by
  have hsingle : ∀ {action : Recover Unit} {place : Range},
      Lands scope before action (fun _ after =>
        ∃ node, after = before.attach node ∧ node.Takes place) →
      Lands scope before action fun _ after =>
        ∃ nodes, after = before.attachAll nodes ∧ List.Forall₂ Node.Takes nodes [place] := by
    intro action place haction
    refine haction.mono ?_
    rintro _ _ ⟨node, rfl, hnode⟩
    exact ⟨[node], rfl, .cons hnode .nil⟩
  cases h with
  | expression hgetter hsetter hvalue hplace hfits =>
    rw [Rule.member, hgetter, hsetter, hvalue]
    exact hsingle (lands_pair hplace hfits before)
  | method hgetter hsetter hvalue hplace hfits =>
    rw [Rule.member, hgetter, hsetter, hvalue]
    exact hsingle (lands_method hplace hfits before)
  | @accessor place function kind haccessors hplace hfits =>
    rw [member_of_accessors (haccessors ▸ List.cons_ne_nil _ _), haccessors]
    refine hsingle ((lands_firstAccessor hplace hfits kind before).bind ?_)
    exact fun _ after hnode => .pure hnode
  | @accessors place other first second kind otherKind haccessors hplace hfirst hstart hbehind
      hsecond =>
    rw [member_of_accessors (haccessors ▸ List.cons_ne_nil _ _), haccessors]
    refine (lands_firstAccessor hplace hfirst kind before).bind ?_
    rintro _ _ ⟨node, rfl, hnode⟩
    obtain ⟨hlow, hhigh⟩ := before.gapStart_attach hnode.liesIn
    refine (lands_secondAccessor hstart hlow (Nat.le_trans hhigh hbehind) hsecond).bind ?_
    rintro _ _ ⟨next, rfl, hnext⟩
    exact .pure ⟨[node, next], rfl, .cons hnode (.cons hnext .nil)⟩

/-- Members have one node for each place, in the order in which they are recovered. -/
theorem lands_members {members : List MemberFragment} {regions : List (List Range)}
    (h : List.Forall₂ (fun member places => member.FitsIn scope places) members regions)
    (before : Stack) :
    Lands scope before (members.forM Rule.member) fun _ after =>
      ∃ nodes, after = before.attachAll nodes ∧
        List.Forall₂ Node.Takes nodes regions.flatten := by
  induction h generalizing before with
  | nil => exact .pure ⟨[], rfl, .nil⟩
  | cons hmember _ ih =>
    refine (lands_member hmember before).bind ?_
    rintro _ _ ⟨nodes, rfl, hnodes⟩
    refine (ih _).mono ?_
    rintro _ _ ⟨others, rfl, hothers⟩
    refine ⟨nodes ++ others, (before.attachAll_append nodes others).symm, ?_⟩
    rw [List.flatten_cons]
    exact List.rel_append hnodes hothers

end Rule

end Concretion
