import Concretion.Proofs.Attaching
import Concretion.Proofs.Header
import Concretion.Proofs.Nesting
import Concretion.Proofs.Semicolons
import Mathlib.Data.List.Forall2

/-!
# Parameters of arrow functions

The parameters of an arrow function may stand in parentheses. The closing one is taken to be the
last in front of the arrow, and for the arrow the first one in the text of the function is taken. If
there is an arrow among the parameters, as in a default value that is an arrow function itself, this
is not the arrow of the function, and the parenthesis in front of it is not the right one.

- `Source.Matching`: two parentheses that match.
- `FunctionDef.Parenthesised`: an arrow function with its parameters in parentheses.
- `Scope.TakesForClosing`: the parenthesis that is taken for the closing one.
- `Node.ListsParameters`: the node of the parameters.
- `arrow_parens_match_iff`: the parentheses match just if there is no arrow between them.
-/

namespace Concretion

open Recover Text

/-! ## Arrows and parentheses -/

namespace Source

variable {source : Source}

/-- Does an arrow stand at the offset, outside of comments and literals? -/
def arrowAt (source : Source) (offset : Nat) : Bool :=
  source.matchesAt (pattern "=>") offset

theorem byteAt_of_arrowAt {offset : Nat} (h : source.arrowAt offset = true) :
    source.byteAt offset = some 0x3D := (Page.At.byteAt_of_matchesAt h).1

theorem significant_of_arrowAt (hmode : source.mode = .skipTrivia) {offset : Nat}
    (h : source.arrowAt offset = true) : source.significant offset = true := by
  obtain ⟨hbyte, htrivia⟩ := Page.At.byteAt_of_matchesAt h
  have hcode : source.inComment offset = false := by
    rw [inTrivia, hmode] at htrivia
    have hnone : source.triviaAt offset = none := by simpa using htrivia
    rw [inComment, hnone, Option.any_none]
  rw [significant_of_code hbyte hcode]
  rfl

/-- The two offsets hold parentheses that match. -/
structure Matching (source : Source) (opening closing : Nat) : Prop where
  opens : source.codeAt 0x28 opening = true
  closes : source.codeAt 0x29 closing = true
  lt : opening < closing
  balanced : source.Balanced (opening + 1) closing

/-- A text shows which parentheses match. -/
instance (source : Source) (opening closing : Nat) : Decidable (source.Matching opening closing) :=
  decidable_of_iff
    (source.codeAt 0x28 opening = true ∧ source.codeAt 0x29 closing = true ∧ opening < closing ∧
      source.Balanced (opening + 1) closing)
    ⟨fun ⟨a, b, c, d⟩ => ⟨a, b, c, d⟩, fun ⟨a, b, c, d⟩ => ⟨a, b, c, d⟩⟩

/-- Where a parenthesis is closed that was not opened, the text is no longer balanced. -/
theorem Balanced.le_of_closes {start middle finish : Nat} (hmiddle : source.Balanced start middle)
    (hle : start ≤ middle) (hcloses : source.codeAt 0x29 middle = true)
    (h : source.Balanced start finish) : finish ≤ middle := by
  by_contra hlt
  -- up to the middle nothing is left open, and then one is closed
  obtain ⟨count, hcount⟩ := Nat.exists_eq_add_of_lt (Nat.not_le.1 hlt)
  have hopens : source.codeAt 0x28 middle = false := by
    rw [codeAt, byteAt_of_codeAt hcloses]
    rfl
  have hstop : source.depthFrom 0 middle (count + 1) = none := by
    rw [depthFrom, depthAfter, hopens, hcloses]
    rfl
  have hsplit : finish - start = (middle - start) + (count + 1) := by omega
  rw [Balanced, hsplit, depthFrom_add, hmiddle, Option.bind_some, Nat.add_sub_cancel' hle,
    hstop] at h
  cases h

/-- A parenthesis has only one partner. -/
theorem Matching.unique {opening closing other : Nat} (h : source.Matching opening closing)
    (hother : source.Matching opening other) : closing = other :=
  Nat.le_antisymm (hother.balanced.le_of_closes hother.lt hother.closes h.balanced)
    (h.balanced.le_of_closes h.lt h.closes hother.balanced)

/-- The arrow is the first one from the offset on. -/
structure FirstArrow (source : Source) (start offset : Nat) : Prop where
  behind : start ≤ offset
  arrow : source.arrowAt offset = true
  first : ∀ i, start ≤ i → i < offset → source.arrowAt i = false

end Source

/-- The offset holds the parenthesis that is taken for the closing one if the arrow is taken to be
that of the function: the last one that is closed between the two. A lenient recovery takes the
opening one if there is none. -/
inductive Scope.TakesForClosing (scope : Scope) (start arrow : Nat) : Nat → Prop where
  | last {found : Nat} (behind : start < found) (before : found < arrow)
      (closes : scope.source.codeAt 0x29 found = true)
      (last : ∀ offset, found < offset → offset < arrow → scope.source.codeAt 0x29 offset = false) :
      TakesForClosing scope start arrow found
  | none (lenient : scope.strict = false)
      (none : ∀ offset, start < offset → offset < arrow → scope.source.codeAt 0x29 offset = false) :
      TakesForClosing scope start arrow start

theorem Scope.TakesForClosing.le {scope : Scope} {start arrow found : Nat}
    (h : scope.TakesForClosing start arrow found) : start ≤ found := by
  cases h with
  | last hbehind => exact hbehind.le
  | none => exact Nat.le_refl _

/-- An arrow function with its parameters in parentheses. Between the closing one and the arrow
there are only blank space and comments. -/
structure FunctionDef.Parenthesised (definition : FunctionDef) (source : Source)
    (closing arrow : Nat) : Prop where
  kind : definition.kind = .arrow
  parens : source.Matching definition.range.start closing
  behind : closing < arrow
  blank : ∀ offset, closing < offset → offset < arrow → source.significant offset = false
  own : source.arrowAt arrow = true
  inside : arrow < definition.range.finish

/-- A text shows where the parameters and the arrow of a function are. -/
instance (definition : FunctionDef) (source : Source) (closing arrow : Nat) :
    Decidable (definition.Parenthesised source closing arrow) :=
  decidable_of_iff
    (definition.kind = .arrow ∧ source.Matching definition.range.start closing ∧ closing < arrow ∧
      (∀ offset, closing + 1 ≤ offset → offset < arrow → source.significant offset = false) ∧
      source.arrowAt arrow = true ∧ arrow < definition.range.finish)
    ⟨fun ⟨a, b, c, d, e, f⟩ => ⟨a, b, c, d, e, f⟩, fun ⟨a, b, c, d, e, f⟩ => ⟨a, b, c, d, e, f⟩⟩

namespace FunctionDef.Parenthesised

variable {definition : FunctionDef} {scope : Scope} {closing arrow first found : Nat}

/-- The arrow that is found is that of the function, or one in front of the closing parenthesis. -/
theorem eq_or_lt_closing (h : definition.Parenthesised scope.source closing arrow)
    (hmode : scope.source.mode = .skipTrivia) (hfirst : scope.source.arrowAt first = true)
    (hle : first ≤ arrow) : first = arrow ∨ first < closing := by
  rcases Nat.lt_trichotomy first closing with hlt | rfl | hgt
  · exact .inr hlt
  · have hbyte := Source.byteAt_of_codeAt h.parens.closes
    rw [Source.byteAt_of_arrowAt hfirst] at hbyte
    cases hbyte
  · left
    by_contra hne
    have hblank := h.blank first hgt (Nat.lt_of_le_of_ne hle hne)
    rw [Source.significant_of_arrowAt hmode hfirst] at hblank
    cases hblank

/-- The arrow of the function is found just if there is none between the parentheses. -/
theorem eq_arrow_iff (h : definition.Parenthesised scope.source closing arrow)
    (hmode : scope.source.mode = .skipTrivia)
    (hfirst : scope.source.FirstArrow definition.range.start first) (hle : first ≤ arrow) :
    first = arrow ↔ ∀ offset, definition.range.start < offset → offset < closing →
      scope.source.arrowAt offset = false := by
  constructor
  · rintro rfl offset hlow hhigh
    exact hfirst.first offset hlow.le (hhigh.trans h.behind)
  · intro hnone
    rcases h.eq_or_lt_closing hmode hfirst.arrow hle with heq | hlt
    · exact heq
    · -- it does not stand at the opening parenthesis, so it is between the two
      have hstart : definition.range.start < first := by
        refine Nat.lt_of_le_of_ne hfirst.behind fun heq => ?_
        have hbyte := Source.byteAt_of_codeAt h.parens.opens
        rw [heq, Source.byteAt_of_arrowAt hfirst.arrow] at hbyte
        cases hbyte
      have hno := hnone first hstart hlt
      rw [hfirst.arrow] at hno
      cases hno

/-- With the arrow of the function the closing parenthesis is found. -/
theorem eq_closing_iff (h : definition.Parenthesised scope.source closing arrow)
    (hmode : scope.source.mode = .skipTrivia) (hfirst : scope.source.arrowAt first = true)
    (hle : first ≤ arrow) (hfound : scope.TakesForClosing definition.range.start first found) :
    found = closing ↔ first = arrow := by
  constructor
  · rintro rfl
    rcases h.eq_or_lt_closing hmode hfirst hle with heq | hlt
    · exact heq
    · have hstart := h.parens.lt
      cases hfound with
      | last _ hbefore => omega
      | none => omega
  · rintro rfl
    -- behind its own parenthesis none is closed in front of the arrow
    have hnone : ∀ offset, closing < offset → offset < first →
        scope.source.codeAt 0x29 offset = false := by
      intro offset hlow hhigh
      rw [Bool.eq_false_iff]
      intro hcloses
      have hblank := h.blank offset hlow hhigh
      rw [Source.significant_of_codeAt (by decide) hcloses] at hblank
      cases hblank
    cases hfound with
    | last hbehind hbefore hcloses hlast =>
      rcases Nat.lt_trichotomy found closing with hlt | heq | hgt
      · have hno := hlast closing hlt h.behind
        rw [h.parens.closes] at hno
        cases hno
      · exact heq
      · have hno := hnone found hgt hbefore
        rw [hcloses] at hno
        cases hno
    | none hlenient hno =>
      have hclosing := hno closing h.parens.lt h.behind
      rw [h.parens.closes] at hclosing
      cases hclosing

/-- An arrow is found, which is that of the function or one in front of it. -/
theorem exists_firstArrow (h : definition.Parenthesised scope.source closing arrow) :
    ∃ first, scope.source.find "=>" definition.range.start definition.range.finish = some first ∧
      scope.source.FirstArrow definition.range.start first ∧ first ≤ arrow := by
  have hsize : arrow < scope.source.size :=
    (Array.getElem?_eq_some_iff.1 (Source.byteAt_of_arrowAt h.own)).1
  have hstart := h.parens.lt.trans h.behind
  have hinside := h.inside
  obtain ⟨first, hfound, hfirst, hle⟩ := Search.exists_firstFrom
    (show scope.source.matchesAt (pattern "=>") arrow = true from h.own) hstart.le
    (show arrow < definition.range.start +
      (min definition.range.finish scope.source.size - definition.range.start) by omega)
  exact ⟨first, hfound, ⟨hfirst.low, hfirst.passes, hfirst.before⟩, hle⟩

end FunctionDef.Parenthesised

/-! ## The node of the parameters -/

/-- A node that covers its children keeps its span just if the children lie in it. -/
theorem Node.span_eq_iff_of_cover {node covered : Node} (h : node.cover = .ok covered) :
    covered.span = node.span ↔
      ∀ child ∈ node.children, node.span.contains child.span = true := by
  obtain ⟨hnode, hchildren⟩ := Node.contains_of_cover h
  constructor
  · intro heq
    rwa [heq] at hchildren
  · intro hinside
    have hcovered : node.span.contains covered.span = true := by
      refine cover_induction (p := (node.span.contains · = true)) (fun hmerge ha hb => ?_) h
        (Span.contains_refl _) hinside
      obtain ⟨-, rfl⟩ := Span.make_eq_ok_iff.1 hmerge
      rw [Span.contains_iff] at ha hb ⊢
      exact ⟨Nat.le_min.2 ⟨ha.1, hb.1⟩, Nat.max_le.2 ⟨ha.2, hb.2⟩⟩
    rw [Span.contains_iff] at hnode hcovered
    exact congrArg₂ Span.mk (Nat.le_antisymm hnode.1 hcovered.1)
      (Nat.le_antisymm hcovered.2 hnode.2)

/-- The node lists parameters between two parentheses. It reaches from one to the other, unless a
parameter reaches further. -/
structure Node.ListsParameters (list : Node) (opening closing count : Nat) : Prop where
  kind : list.kind =
    .parameters (some (Token.leftParen.at opening)) (some (Token.rightParen.at closing))
  length : list.children.length = count
  around : list.span.contains ⟨opening, closing⟩ = true
  span : list.span = ⟨opening, closing⟩ ↔
    ∀ child ∈ list.children, (Span.mk opening closing).contains child.span = true

/-- The search for the last parenthesis in front of the arrow comes to the one that is taken for the
closing one. -/
theorem Scope.takesForClosing_of_locateLast {scope : Scope} {context : String}
    {start arrow found : Nat} (hmode : scope.source.mode = .skipTrivia)
    (harrow : scope.source.arrowAt arrow = true)
    (h : scope.source.locateLast context ")" (start + 1) arrow = .ok found ∨
      (∃ missing, scope.source.locateLast context ")" (start + 1) arrow = .error missing) ∧
        scope.strict = false ∧ found = start) : scope.TakesForClosing start arrow found := by
  have hsize : arrow < scope.source.size :=
    (Array.getElem?_eq_some_iff.1 (Source.byteAt_of_arrowAt harrow)).1
  have htest := Source.matchesAt_rightParen hmode
  rw [Source.locateLast, Source.findLast] at h
  -- A search that finds nothing has failed everywhere between, and a lenient recovery then takes
  -- the place where it started.
  cases hlast : Search.lastFrom (scope.source.matchesAt (pattern ")")) (start + 1)
      (min arrow scope.source.size - (start + 1)) with
  | some last =>
    rw [hlast] at h
    obtain rfl : last = found := by
      rcases h with hok | ⟨⟨_, herror⟩, -, -⟩
      · exact Except.ok.inj hok
      · cases herror
    obtain ⟨hpasses, hlow, hhigh, hfails⟩ := Search.lastFrom_eq_some_iff.1 hlast
    refine .last (by omega) (by omega) ?_ fun offset hbehind hbefore => ?_
    · rw [← htest]
      exact hpasses
    · rw [← htest]
      exact hfails offset hbehind (by omega)
  | none =>
    rw [hlast] at h
    obtain ⟨hlenient, rfl⟩ : scope.strict = false ∧ found = start := by
      rcases h with hok | ⟨-, hfallback⟩
      · cases hok
      · exact hfallback
    refine .none hlenient fun offset hbehind hbefore => ?_
    rw [← htest]
    exact Search.lastFrom_eq_none_iff.1 hlast offset hbehind (by omega)

namespace Rule

variable {scope : Scope} {function : FunctionFragment}

theorem sees_arrowParens {arrow : Nat} (hmode : scope.source.mode = .skipTrivia)
    (hopens : scope.source.byteAt function.range.start = some 0x28)
    (hfind : scope.source.find "=>" function.range.start function.range.finish = some arrow) :
    Sees scope (arrowParens function) fun parens => ∃ found,
      parens = some (function.range.start, found) ∧
        scope.TakesForClosing function.range.start arrow found := by
  refine Sees.source.bind fun text htext => (Sees.settle _ _).bind fun offset hoffset => ?_
  subst htext
  obtain rfl := hoffset arrow (by rw [Source.locate, hfind])
  rw [if_neg (by simp [hopens])]
  refine (Sees.settle_or _ _).bind fun found hfound => (Sees.pure _).mono fun parens hparens => ?_
  refine ⟨found, hparens, ?_⟩
  exact Scope.takesForClosing_of_locateLast hmode (Search.firstFrom_eq_some_iff.1 hfind).passes
    hfound

theorem sees_parameterNode {opening closing : Nat} (hle : opening ≤ closing) :
    Sees scope (parameterNode function (some (opening, closing)))
      (· = .leaf (.parameters (some (Token.leftParen.at opening))
        (some (Token.rightParen.at closing))) ⟨opening, closing⟩) := by
  refine (Sees.symbolAt _ _).bind fun lparen hlparen => ?_
  refine (Sees.symbolAt _ _).bind fun rparen hrparen => ?_
  refine (Sees.mergeSpans _ _).bind fun span hspan => (Sees.pure _).mono fun node hnode => ?_
  subst hlparen hrparen hnode
  have hmerge : (Token.leftParen.at opening).span.merge (Token.rightParen.at closing).span =
      .ok ⟨opening, closing⟩ := by
    rw [Span.merge_of_ordered (.inl (Nat.le_refl _))]
    exact congrArg Except.ok (congrArg₂ Span.mk (Nat.min_eq_left hle) (Nat.max_eq_right hle))
  rw [hmerge] at hspan
  cases hspan
  rfl

theorem puts_restElement (parameter : Ident) (ellipsis : Option Symbol) :
    Puts scope (restElement parameter ellipsis) fun _ => True :=
  .after (.rangeSpan _ _) fun _ _ => .after (.identifier _ _ _) fun _ _ => .attach trivial

theorem puts_restParameter (parameter : Ident) :
    Puts scope (restParameter parameter) fun _ => True := by
  rw [restParameter]
  refine .after .source fun _ _ => .after .gapStart fun _ _ => .after (.settle? _) fun found _ => ?_
  cases found with
  | none => exact puts_restElement parameter none
  | some offset =>
    exact .after (.symbolAt _ _) fun symbol _ => puts_restElement parameter (some symbol)

theorem puts_defaultParameter (parameter : Ident) {value : Fragment} (h : value.Sound False) :
    Puts scope (defaultParameter parameter value) fun _ => True := by
  refine .after (.find _ _ _ _) fun equal _ => .after (.rangeSpan _ _) fun span _ => ?_
  refine .after (.identifier _ _ _) fun name _ => .enter ?_ fun _ _ => trivial
  exact (Sound.attach False.elim).andThen h.builds

theorem puts_parameter (h : function.Sound False) (parameter : Ident) :
    Puts scope (Rule.parameter function parameter) fun _ => True := by
  refine parameter_cases (P := fun action => Puts scope action fun _ => True)
    (fun _ => puts_restParameter parameter) (fun value hvalue => ?_)
    (.after (.note _) fun _ _ => .identifier parameter) (.identifier parameter)
  exact puts_defaultParameter parameter (h.defaults (parameter.name, value) hvalue)

/-- The parameters of an arrow function in parentheses are listed between the one at the start of
the function and the one that is taken for the closing one. -/
theorem puts_arrowParameters {arrow : Nat} (h : function.Sound False)
    (hkind : function.kind = .arrow) (hmode : scope.source.mode = .skipTrivia)
    (hopens : scope.source.byteAt function.range.start = some 0x28)
    (hfind : scope.source.find "=>" function.range.start function.range.finish = some arrow)
    (nameEnd : Nat) :
    Puts scope (parameters function nameEnd) fun list => ∃ found,
      list.ListsParameters function.range.start found function.parameters.length ∧
        scope.TakesForClosing function.range.start arrow found := by
  have hlist : Sees scope (parameterList function nameEnd) fun list => ∃ found,
      list = .leaf (.parameters (some (Token.leftParen.at function.range.start))
        (some (Token.rightParen.at found))) ⟨function.range.start, found⟩ ∧
        scope.TakesForClosing function.range.start arrow found := by
    have harrow : (function.kind == .arrow) = true := beq_iff_eq.2 hkind
    rw [parameterList, if_pos harrow]
    refine (sees_arrowParens hmode hopens hfind).bind ?_
    rintro _ ⟨found, rfl, hfound⟩
    exact (sees_parameterNode hfound.le).mono fun list hlist => ⟨found, hlist, hfound⟩
  have heach : ∀ parameter ∈ function.parameters,
      Puts scope (Rule.parameter function parameter) fun _ => True :=
    fun parameter _ => puts_parameter h parameter
  refine .after hlist ?_
  rintro _ ⟨found, rfl, hfound⟩
  refine .after (Sees.withinAll (PutsAll.each heach)) ?_
  rintro list ⟨children, hchildren, hcover⟩
  refine .attach ⟨found, ?_, hfound⟩
  -- The list reaches around its children, so it keeps its own span only if they lie between its
  -- parentheses.
  have haround := (Node.contains_of_cover hcover).1
  have hspan := Node.span_eq_iff_of_cover hcover
  obtain ⟨wide, rfl⟩ := Node.eq_of_cover hcover
  exact ⟨rfl, hchildren.length_eq.symm, haround, hspan⟩

end Rule

/-! ## The node of the function -/

/-- The body of an arrow function as it is written: a block in braces, or an expression. -/
inductive Block.IsArrowBody : Block → Prop where
  | braced {range : Range} {statements : List Stmt} : IsArrowBody ⟨range, .braced, statements⟩
  | value {range place : Range} {value : Expr} :
      IsArrowBody ⟨range, .synthetic, [.returnValue place (some value) true]⟩

/-- The body of an arrow function. If there are default values, statements that set them come first,
and what is written is the last statement. -/
inductive Block.FollowsArrow : Block → Prop where
  | plain {block : Block} (h : block.IsArrowBody) : FollowsArrow block
  | block {range : Range} {setters : List Stmt} {body : Block} (h : body.IsArrowBody) :
      FollowsArrow ⟨range, .parameter, setters ++ [.block body]⟩
  | value {range place : Range} {setters : List Stmt} {value : Expr} :
      FollowsArrow ⟨range, .parameter, setters ++ [.returnValue place (some value) true]⟩

/-- The expression that an arrow function returns is recovered as such. -/
theorem Stmt.putsAll_returned (place : Range) (value : Expr) (scope : Scope) :
    PutsAll scope (Stmt.returnValue place (some value) true).recover fun _ => True :=
  (value.putsAll scope).mono fun _ _ => trivial

theorem Block.IsArrowBody.putsAll {block : Block} (h : block.IsArrowBody) (scope : Scope) :
    PutsAll scope block.recover fun _ => True := by
  cases h with
  | @braced range statements =>
    have hputs : Puts scope (Rule.bracedBlock range (statementFragments statements))
        fun _ => True := by
      refine .after (.rangeSpan _ _) fun _ _ => .after (.findAtOrAfter _ _ _ _) fun lbrace _ => ?_
      refine .after (.findEndingAt _ _ _ _) fun rbrace _ => .after (.mergeSpans _ _) fun _ _ => ?_
      refine .enter (Sound.forM fun statement hmem => ?_) fun _ _ => trivial
      exact (statementFragments_sound False statements statement hmem).builds
    exact (PutsAll.ofPuts hputs).mono fun _ _ => trivial
  | @value range place value =>
    show PutsAll scope (Rule.syntheticBlock
      (statementFragments [.returnValue place (some value) true])) fun _ => True
    rw [Rule.syntheticBlock_of_none rfl]
    refine ((Stmt.putsAll_returned place value scope).andThen (.ofSees (.pure ()))).mono ?_
    exact fun _ _ => trivial

/-- Of the body of a function with default values, the last statement is recovered. -/
theorem Block.recover_parameter (range : Range) (setters : List Stmt) (last : Stmt) :
    Block.recover ⟨range, .parameter, setters ++ [last]⟩ = last.recover := by
  show Rule.parameterBlock range (statementFragments (setters ++ [last])) = _
  rw [Rule.parameterBlock, statementFragments_eq_map, List.map_append, List.map_singleton,
    List.getLast?_concat]
  exact last.fragment_build

theorem Block.FollowsArrow.putsAll {block : Block} (h : block.FollowsArrow) (scope : Scope) :
    PutsAll scope block.recover fun _ => True := by
  cases h with
  | plain h => exact h.putsAll scope
  | block h => exact Block.recover_parameter _ _ _ ▸ h.putsAll scope
  | value => exact Block.recover_parameter _ _ _ ▸ Stmt.putsAll_returned _ _ scope

/-- The node of an arrow function has its parameters in front. -/
structure Node.IsArrowWith (node : Node) (parameters : Node → Prop) : Prop where
  kind : node.kind = .arrowFunction
  list : ∃ list, node.children.head? = some list ∧ parameters list

theorem Rule.sees_arrowNode {scope : Scope} {function : FunctionFragment} {result : Node → Prop}
    (hkind : function.kind = .arrow)
    (hparameters : ∀ nameEnd, Puts scope (parameters function nameEnd) result)
    (hbody : PutsAll scope function.body.build fun _ => True) :
    Sees scope (functionNode function none) (·.IsArrowWith result) := by
  have hname : functionName function none = pure () := if_pos (beq_iff_eq.2 hkind)
  have hnode : functionNodeKind function false = .arrowFunction := by
    rw [functionNodeKind, hkind]
  refine (sees_functionStart _ _).bind fun start _ => (Sees.rangeSpan _ _).bind fun span _ => ?_
  dsimp only
  rw [hname, pure_bind]
  refine (Sees.withinAll ((PutsAll.ofPuts (hparameters _)).andThen hbody)).mono ?_
  rintro node ⟨_, ⟨_, rest, rfl, ⟨list, rfl, hlist⟩, -⟩, hcover⟩
  obtain ⟨wide, rfl⟩ := Node.eq_of_cover hcover
  exact ⟨hnode, list, rfl, hlist⟩

/-- The parentheses of an arrow function that are recovered match, so that they are its own, just if
there is no arrow between its own. In any case the first one is that at its start. The node of the
parameters reaches from one to the other, unless a parameter reaches further. -/
theorem arrow_parens_match_iff {scope : Scope} {definition : FunctionDef} {closing arrow : Nat}
    (hmode : scope.source.mode = .skipTrivia)
    (hwritten : definition.Parenthesised scope.source closing arrow)
    (hbody : definition.body.FollowsArrow) {session last : Session}
    (hrun : (Expr.functionDef definition).recover.outcome scope session = (.ok (), last)) :
    ∃ node found, last.stack = session.stack.attach node ∧
      node.unexported.IsArrowWith
        (·.ListsParameters definition.range.start found definition.parameters.length) ∧
      (scope.source.Matching definition.range.start found ↔ found = closing) ∧
      (found = closing ↔ ∀ offset, definition.range.start < offset → offset < closing →
        scope.source.arrowAt offset = false) ∧
      ∃ first, scope.source.FirstArrow definition.range.start first ∧
        scope.TakesForClosing definition.range.start first found := by
  obtain ⟨first, hfind, hfirst, hle⟩ := hwritten.exists_firstArrow
  have hopens : scope.source.byteAt definition.range.start = some 0x28 :=
    Source.byteAt_of_codeAt hwritten.parens.opens
  have hfunction : definition.fragment.Sound False := definition.sound False
  obtain ⟨range, name, kind, parameters, body, isAnonymous, isMethod, isDeclared, hasSuper⟩ :=
    definition
  have hnode := Rule.sees_arrowNode hwritten.kind
    (Rule.puts_arrowParameters hfunction hwritten.kind hmode hopens hfind) (hbody.putsAll scope)
  have hputs := Rule.puts_functionExpression_of _ (hnode.mono fun node hnode =>
    ⟨hnode.kind ▸ rfl, hnode, ⟨hnode.kind, hnode.list⟩⟩)
  obtain ⟨node, hstack, hkind, list, hlist, found, hlists, hfound⟩ := hputs session last hrun
  have hclosing := hwritten.eq_closing_iff hmode hfirst.arrow hle hfound
  refine ⟨node, found, hstack, ⟨hkind, list, hlist, hlists⟩, ?_, ?_, first, hfirst, hfound⟩
  · constructor
    · exact fun hmatching => hmatching.unique hwritten.parens
    · exact fun heq => heq ▸ hwritten.parens
  · rw [hclosing]
    exact hwritten.eq_arrow_iff hmode hfirst hle

/-- An arrow function of two parameters, the first of which has a default value. -/
def FunctionDef.sampleArrow (value : Expr) : FunctionDef :=
  let parameter : Ident := ⟨⟨1, 2⟩, "a", false, true⟩
  let setter : Expr := .binary ⟨1, 13⟩ .assign (.ident parameter)
    (.conditional ⟨1, 13⟩ (.ident parameter) value (.ident parameter))
  let body : Block := ⟨⟨21, 22⟩, .synthetic,
    [.returnValue ⟨21, 22⟩ (some (.ident ⟨⟨21, 22⟩, "a", false, false⟩)) true]⟩
  ⟨⟨0, 22⟩, ⟨⟨0, 0⟩, "=>", false, false⟩, .arrow, [parameter, ⟨⟨15, 16⟩, "c", false, false⟩],
    ⟨⟨0, 22⟩, .parameter, [.expression ⟨1, 13⟩ setter] ++ [.block body]⟩, true, false, false, false⟩

/-- A default value that has parentheses. -/
def Expr.sampleSum : Expr :=
  .binary ⟨6, 13⟩ .add (.ident ⟨⟨6, 7⟩, "b", false, false⟩) (.ident ⟨⟨12, 13⟩, "b", false, false⟩)

/-- A default value that is an arrow function itself. -/
def Expr.sampleInnerArrow : Expr :=
  .functionDef ⟨⟨5, 13⟩, ⟨⟨5, 5⟩, "=>", false, false⟩, .arrow, [⟨⟨6, 7⟩, "b", false, false⟩],
    ⟨⟨12, 13⟩, .synthetic, [.returnValue ⟨12, 13⟩
      (some (.ident ⟨⟨12, 13⟩, "b", false, false⟩)) true]⟩, true, false, false, false⟩

/-- The closing parenthesis is found behind parentheses among the parameters, but not behind an
arrow among them. -/
theorem parens_of_sampleArrow :
    let sum := FunctionDef.sampleArrow .sampleSum
    let nested := FunctionDef.sampleArrow .sampleInnerArrow
    let plain := Scope.of "(a = (b) +  b, c) => a" none .unforgiving
    let parted := Scope.of "(a = (b) => b, c) => a" none .unforgiving
    sum.Parenthesised plain.source 16 18 ∧ nested.Parenthesised parted.source 16 18 ∧
      (∃ node later, (Expr.functionDef sum).recover.outcome plain (.start plain.source) =
        (.ok (), later) ∧ later.stack = (Session.start plain.source).stack.attach node ∧
          node.unexported.IsArrowWith (·.ListsParameters 0 16 2)) ∧
      ∃ node later found, (Expr.functionDef nested).recover.outcome parted (.start parted.source) =
        (.ok (), later) ∧ later.stack = (Session.start parted.source).stack.attach node ∧
          node.unexported.IsArrowWith (·.ListsParameters 0 found 2) ∧
          ¬ parted.source.Matching 0 found := by
  intro sum nested plain parted
  have hplain : sum.Parenthesised plain.source 16 18 := by decide +kernel
  have hparted : nested.Parenthesised parted.source 16 18 := by decide +kernel
  refine ⟨hplain, hparted, ?_, ?_⟩
  · have hrun : (Expr.functionDef sum).recover.outcome plain (.start plain.source) =
        (.ok (), _) := Prod.ext (by decide +kernel) rfl
    obtain ⟨node, found, hstack, hnode, -, hfound, -⟩ :=
      arrow_parens_match_iff rfl hplain (.block .value) hrun
    have hnone : ∀ offset, 1 ≤ offset → offset < 16 → plain.source.arrowAt offset = false := by
      decide +kernel
    obtain rfl : found = 16 := hfound.2 hnone
    exact ⟨node, _, hrun, hstack, hnode⟩
  · have hrun : (Expr.functionDef nested).recover.outcome parted (.start parted.source) =
        (.ok (), _) := Prod.ext (by decide +kernel) rfl
    obtain ⟨node, found, hstack, hnode, hmatching, hfound, -⟩ :=
      arrow_parens_match_iff rfl hparted (.block .value) hrun
    refine ⟨node, _, found, hrun, hstack, hnode, fun h => ?_⟩
    have harrow : parted.source.arrowAt 9 = true := by decide +kernel
    rw [hfound.1 (hmatching.1 h) 9 (by decide) (by decide)] at harrow
    cases harrow

end Concretion
