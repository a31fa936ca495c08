import Concretion.Proofs.Attaching
import Concretion.Proofs.Header
import Concretion.Proofs.Places
import Concretion.Proofs.Shape
import Concretion.Proofs.Skipping.Rules
import Mathlib.Data.List.Forall2

/-!
# Declarations in loop headers

The declarations of a loop header stand in front of the loop in the abstract tree. They are
recovered aside, where each of them begins a node of variables or goes on with the one before, and
then become a single first child of the node of the loop.

- `DeclaresAll`: what declarations leave behind, as far as all of it are nodes of variables.
- `Decides`: computations that only look at what they are given.
- `ForLoop.Heads`: a node of variables is the first child of a loop.
- `header_moves_into_loop`: all declarations of a header are there, one by one and in order.
-/

namespace Concretion

open Recover

/-! ## Nodes of variables -/

/-- The nodes are all nodes of variables. -/
def AllVar (nodes : List Node) : Prop := ∀ node ∈ nodes, node.kind.isVar = true

/-- The declarators in nodes of variables. -/
def declaratorsOf (nodes : List Node) : List Node := nodes.flatMap Node.children

theorem declaratorsOf_concat (nodes : List Node) (node : Node) :
    declaratorsOf (nodes ++ [node]) = declaratorsOf nodes ++ node.children := by
  rw [declaratorsOf, List.flatMap_append, List.flatMap_singleton]
  rfl

theorem allVar_concat {nodes : List Node} {node : Node} :
    AllVar (nodes ++ [node]) ↔ AllVar nodes ∧ node.kind.isVar = true := by
  rw [AllVar, List.forall_mem_append, List.forall_mem_singleton]
  rfl

/-- The node has the declarators of the nodes passed, all of which are nodes of variables as it is
itself. -/
structure Node.Combines (combined : Node) (passed : List Node) : Prop where
  isVar : combined.kind.isVar = true
  all : AllVar passed
  children : combined.children = declaratorsOf passed

/-- The node is a declarator around the name at the range. -/
structure Node.DeclaresAt (node : Node) (name : Range) : Prop where
  kind : node.kind.isDeclaration = true
  around : node.span.contains name.span = true

namespace Recover

variable {α β : Type} {scope : Scope}

/-- A step that leaves the children alone, in front of what comes next. -/
theorem ok_of_look {action : Recover α} {found : α → Prop} {next : α → Recover β}
    {session last : Session}
    {value : β} (h : Looks scope action found) (hskips : session.skipsName = false)
    (hrun : (action >>= next).outcome scope session = (.ok value, last)) :
    ∃ made later, found made ∧ later.skipsName = false ∧ later.stack = session.stack ∧
      (next made).outcome scope later = (.ok value, last) := by
  obtain ⟨made, later, hfirst, hsecond⟩ := ok_of_bind hrun
  obtain ⟨hgrown, hsame, hfound⟩ := h session.stack.children session rfl hskips made later hfirst
  refine ⟨made, later, hfound, hgrown.skipsName, ?_, hsecond⟩
  rw [hgrown.stack, hsame, Stack.setChildren_children]

/-! ## Declarations one after the other -/

/-- After a run that succeeds the innermost open node has other children. If they are all nodes of
variables, then so were those before, no name is to be skipped, and there is one more declarator for
each of the names, in order and behind the others. -/
def DeclaresAll (scope : Scope) (names : List Range) (action : Recover Unit) : Prop :=
  ∀ session last, action.outcome scope session = (.ok (), last) →
    ∃ nodes, last.stack = session.stack.setChildren nodes ∧ (AllVar nodes →
      AllVar session.stack.children ∧
      last.skipsName = (names.isEmpty && session.skipsName) ∧
      ∃ declarators, List.Forall₂ Node.DeclaresAt declarators names ∧
        declaratorsOf nodes = declaratorsOf session.stack.children ++ declarators)

namespace DeclaresAll

variable {action next : Recover Unit} {name : Range} {names more : List Range}

theorem nil : DeclaresAll scope [] (pure ()) := by
  intro session last hrun
  cases hrun
  refine ⟨session.stack.children, (Stack.setChildren_children _).symm, fun hall => ?_⟩
  exact ⟨hall, rfl, [], .nil, (List.append_nil _).symm⟩

theorem andThen (h : DeclaresAll scope names action) (hn : DeclaresAll scope more next) :
    DeclaresAll scope (names ++ more) (action >>= fun _ => next) := by
  intro session last hrun
  obtain ⟨_, later, hfirst, hsecond⟩ := ok_of_bind hrun
  obtain ⟨between, hbetween, hnames⟩ := h session later hfirst
  obtain ⟨nodes, hnodes, hmore⟩ := hn later last hsecond
  rw [hbetween, Stack.setChildren_setChildren] at hnodes
  rw [hbetween, Stack.children_setChildren] at hmore
  refine ⟨nodes, hnodes, fun hall => ?_⟩
  obtain ⟨hall', hskips', back, hback, hdeclared'⟩ := hmore hall
  obtain ⟨hall, hskips, front, hfront, hdeclared⟩ := hnames hall'
  refine ⟨hall, ?_, front ++ back, List.rel_append hfront hback, ?_⟩
  · rw [hskips', hskips, ← Bool.and_assoc]
    congr 1
    cases names <;> cases more <;> rfl
  · rw [hdeclared', hdeclared, List.append_assoc]

/-- What comes first leaves the stack alone. -/
theorem after {look : Recover α} {found : α → Prop} {next : α → Recover Unit}
    (h : Sees scope look found)
    (hn : ∀ value, found value → DeclaresAll scope [name] (next value)) :
    DeclaresAll scope [name] (look >>= next) := by
  intro session last hrun
  obtain ⟨value, later, hfirst, hsecond⟩ := ok_of_bind hrun
  obtain ⟨hstack, hfound⟩ := h session value later hfirst
  rw [← hstack]
  exact hn value hfound later last hsecond

/-- A node of another kind is no node of variables. -/
theorem ofOther (h : Puts scope action (·.kind.isVar = false)) :
    DeclaresAll scope names action := by
  intro session last hrun
  obtain ⟨node, hstack, hother⟩ := h session last hrun
  refine ⟨session.stack.children ++ [node], ?_, fun hall => ?_⟩
  · rw [hstack, Stack.attach_eq_setChildren]
  · rw [(allVar_concat.1 hall).2] at hother
    cases hother

/-- A new node of variables, with a single declarator. -/
theorem ofPuts (h : Puts scope action fun node => node.kind.isVar = true →
      ∃ declarator, node.children = [declarator] ∧ declarator.DeclaresAt name)
    (hskips : Answers scope action) : DeclaresAll scope [name] action := by
  intro session last hrun
  obtain ⟨node, hstack, hnode⟩ := h session last hrun
  refine ⟨session.stack.children ++ [node], ?_, fun hall => ?_⟩
  · rw [hstack, Stack.attach_eq_setChildren]
  · obtain ⟨hbefore, hvar⟩ := allVar_concat.1 hall
    obtain ⟨declarator, hchildren, hdeclares⟩ := hnode hvar
    refine ⟨hbefore, hskips session () last hrun, [declarator], .cons hdeclares .nil, ?_⟩
    rw [declaratorsOf_concat, hchildren]

end DeclaresAll

/-! ## Decisions -/

/-- A run that succeeds changes nothing, and what it yields is as said. -/
def Decides (scope : Scope) (action : Recover α) (result : α → Prop) : Prop :=
  ∀ session value last, action.outcome scope session = (.ok value, last) →
    last = session ∧ result value

namespace Decides

theorem pure {result : α → Prop} {value : α} (h : result value) :
    Decides scope (Pure.pure value) result := by
  intro session made last hrun
  cases hrun
  exact ⟨rfl, h⟩

theorem bind {action : Recover α} {found : α → Prop} {next : α → Recover β} {result : β → Prop}
    (h : Decides scope action found)
    (hn : ∀ value, found value → Decides scope (next value) result) :
    Decides scope (action >>= next) result := by
  intro session value last hrun
  obtain ⟨made, later, hfirst, hsecond⟩ := ok_of_bind hrun
  obtain ⟨rfl, hfound⟩ := h session made later hfirst
  exact hn made hfound later value last hsecond

theorem mono {action : Recover α} {result weaker : α → Prop} (h : Decides scope action result)
    (hw : ∀ value, result value → weaker value) : Decides scope action weaker := by
  intro session value last hrun
  obtain ⟨hlast, hresult⟩ := h session value last hrun
  exact ⟨hlast, hw value hresult⟩

theorem mergeSpans (a b : Span) : Decides scope (mergeSpans a b) fun _ => True := by
  intro session value last hrun
  exact ⟨(ok_of_orFail hrun).2, trivial⟩

theorem foldlM {γ : Type} {step : α → γ → Recover α} (result : α → List γ → Prop) {list : List γ}
    {value : α} (passed : List γ) (hv : result value passed)
    (h : ∀ value passed item, result value passed →
      Decides scope (step value item) (result · (passed ++ [item]))) :
    Decides scope (list.foldlM step value) (result · (passed ++ list)) := by
  induction list generalizing value passed with
  | nil =>
    rw [List.append_nil]
    exact pure hv
  | cons item rest ih =>
    rw [List.foldlM_cons]
    refine (h value passed item hv).bind fun next hnext => ?_
    have hrest := ih (passed ++ [item]) hnext
    rwa [List.append_assoc] at hrest

end Decides

theorem Sees.expectChildren (count : Nat) : Sees scope (expectChildren count) fun _ => True := by
  refine getStack.bind fun stack _ => ?_
  dsimp only
  split
  · exact throw
  · exact (pure _).mono fun _ _ => trivial

/-- A range that fits the text. -/
theorem Sees.fits (start finish : Nat) : Sees scope (Recover.rangeSpan start finish) fun span =>
    scope.source.rangeSpan start finish = .ok span := by
  refine source.bind fun text htext => ?_
  subst htext
  exact orFail _

/-- Whatever becomes of its children, a node that is opened keeps its kind and its place. -/
theorem Sees.withinAround {node : Node} {body : Recover Unit} (hbody : Builds False true body) :
    Sees scope (Recover.within node body) fun made =>
      made.kind = node.kind ∧ made.span.contains node.span = true := by
  intro session made last hrun
  obtain ⟨hstack, hkind⟩ := Sees.within hbody session made last hrun
  have hkept := hbody.kept scope (session.opening node) False.elim
  obtain ⟨later, closed, hlater, hopened, -, -, -, -, hcover⟩ := ok_of_within hrun
  rw [hlater] at hkept
  obtain ⟨inner, -, hspan, -, hinner⟩ := hkept.frame.of_push
  rw [hinner] at hopened
  obtain ⟨rfl, -⟩ := List.cons_eq_cons.1 hopened
  exact ⟨hstack, hkind, hspan ▸ (Node.contains_of_cover hcover).1⟩

end Recover

namespace Rule

variable {scope : Scope} {binding : BindingFragment}

/-! ## Declarators -/

theorem sees_declaration (h : binding.Sound False) :
    Sees scope (declaration binding) (·.DeclaresAt binding.name.range) := by
  refine (Sees.fits _ _).bind fun span hspan => ?_
  have hname : span.contains binding.name.range.span = true := by
    rw [Source.eq_of_rangeSpan hspan, Span.contains_iff]
    refine ⟨Nat.le_refl _, ?_⟩
    simp only [Range.span, Span.ofBounds]
    split <;> omega
  have hnode : ∀ equal : Option Symbol, Sees scope
      (within (.leaf (.declaration equal) span) (declarationParts binding span))
      (·.DeclaresAt binding.name.range) := by
    intro equal
    refine (Sees.withinAround (sound_declarationParts h False.elim)).mono ?_
    rintro made ⟨hkind, haround⟩
    exact ⟨hkind ▸ rfl, Span.contains_trans haround hname⟩
  split
  · exact (Sees.find _ _ _ _).bind fun equal _ => hnode (some equal)
  · exact hnode none

/-! ## Variables -/

/-- A new statement of variables, unless it is exported. -/
theorem declares_variableStatement (h : binding.Sound False) (keywordStart windowStart : Nat) :
    DeclaresAll scope [binding.name.range]
      (variableStatement binding keywordStart windowStart) := by
  refine .ofPuts ?_ ?_
  · refine .after (.symbolAt _ _) fun keyword _ => ?_
    refine .after (sees_declaration h) fun declarator hd => ?_
    refine .after (.spanBetween _ _) fun span _ => .after (.terminates _ _) fun flag _ => ?_
    refine .after (.exportStatus _) fun status _ => .exportIf ?_ fun _ _ _ hvar => ?_
    · exact fun _ => ⟨declarator, rfl, hd⟩
    · cases hvar
  · exact answers_variableStatement binding keywordStart windowStart

/-- A declarator that goes on with a node of variables is the last one in it. -/
theorem decides_extendVariables (statement declarator : Node) :
    Decides scope (extendVariables statement declarator) fun made =>
      made.kind = statement.kind ∧ (statement.kind.isVar = true →
        made.children = statement.children ++ [declarator]) := by
  have hadd : ∀ node : Node, Decides scope (addDeclarator declarator node) fun made =>
      made.kind = node.kind ∧ made.children = node.children ++ [declarator] := fun node =>
    (Decides.mergeSpans _ _).bind fun span _ => .pure ⟨rfl, rfl⟩
  unfold extendVariables
  split
  · refine (hadd statement).mono fun made ⟨hkind, hchildren⟩ => ⟨hkind, fun _ => hchildren⟩
  · next hother =>
    refine (Decides.mergeSpans _ _).bind fun span _ => ?_
    cases statement.lastChild? with
    | none => exact .pure ⟨rfl, fun hvar => absurd hvar hother⟩
    | some held =>
      rw [Option.toList_some, List.mapM_cons, List.mapM_nil]
      simp only [bind_assoc, pure_bind]
      exact (hadd held).bind fun made _ => .pure ⟨rfl, fun hvar => absurd hvar hother⟩

/-- A declarator that goes on with the node in front of it. -/
theorem declares_continuedVariable (h : binding.Sound False) :
    DeclaresAll scope [binding.name.range] (continuedVariable binding) := by
  intro session last hrun
  obtain ⟨declarator, declared, hdeclaration, hrun⟩ := ok_of_bind hrun
  obtain ⟨hstack, hdeclares⟩ := sees_declaration h session declarator declared hdeclaration
  have hskips := answers_declaration binding session declarator declared hdeclaration
  obtain ⟨flag, looked, hflag, hrun⟩ := ok_of_bind hrun
  cases hflag
  rw [outcome_bind_ok (outcome_getStack scope declared)] at hrun
  cases hlast : declared.stack.lastChild? with
  | none =>
    rw [hlast] at hrun
    cases hrun
  | some statement =>
    rw [hlast] at hrun
    dsimp only at hrun
    split at hrun
    · obtain ⟨extended, later, hextend, hreplace⟩ := ok_of_bind hrun
      obtain ⟨rfl, hkind, hchildren⟩ :=
        decides_extendVariables statement declarator declared extended later hextend
      cases hreplace
      have hfront : session.stack.children = session.stack.children.dropLast ++ [statement] := by
        rw [hstack] at hlast
        exact (List.dropLast_append_getLast? statement hlast).symm
      let terminated :=
        scope.source.endsWithSemicolon (max binding.range.finish (declarator.last + 1))
      let made := { extended with ownsSemicolon := terminated }
      -- The node in front is replaced by the extended one, which has one declarator more.
      refine ⟨session.stack.children.dropLast ++ [made], ?_, fun hall => ?_⟩
      · rw [← hstack]
        exact Stack.replaceLast_eq_setChildren _ hlast
      · obtain ⟨hbefore, hvar⟩ := allVar_concat.1 hall
        have hvar' : statement.kind.isVar = true := hkind ▸ hvar
        refine ⟨?_, hskips, [declarator], .cons hdeclares .nil, ?_⟩
        · rw [hfront]
          exact allVar_concat.2 ⟨hbefore, hvar'⟩
        · rw [declaratorsOf_concat, hchildren hvar', hfront, declaratorsOf_concat,
            List.dropLast_concat, List.append_assoc]
    · cases hrun

/-- A variable is one more declarator, in a node of its own or in the one in front of it. -/
theorem declares_variableBinding (h : binding.Sound False) :
    DeclaresAll scope [binding.name.range] (variableBinding binding) := by
  refine .after .gapStart fun windowStart _ => ?_
  have hkeyword : ∀ keyword nameStart,
      Sees scope (ownKeyword keyword windowStart nameStart) fun _ => True := by
    intro keyword nameStart
    refine Sees.source.bind fun text _ => ?_
    dsimp only
    split <;> exact (Sees.pure _).mono fun _ _ => trivial
  refine .after (hkeyword _ _) fun found _ => ?_
  cases found with
  | some offset => exact declares_variableStatement h offset windowStart
  | none =>
    refine .after .getStack fun stack _ => ?_
    dsimp only
    split
    · exact declares_continuedVariable h
    · refine .after .source fun text _ => .after (.settle _ _) fun offset _ => ?_
      exact declares_variableStatement h offset windowStart

/-! ## Bindings that are no variables -/

theorem puts_defaultExport (h : binding.Sound False) :
    Puts scope (defaultExport binding) (·.kind.isVar = false) := by
  unfold defaultExport
  cases hinit : binding.init with
  | none => exact .after (.rangeSpan _ _) fun span _ => .throw
  | some init =>
    refine .after .gapStart fun windowStart _ => ?_
    refine .after (.findLastWord? _ _ _ _) fun keyword _ => .after (.rangeSpan _ _) fun span _ => ?_
    refine .after (.within (h init hinit).builds) fun node hkind => ?_
    refine .after .takeSkip fun _ _ => .after (.terminates _ _) fun flag _ => .attach ?_
    show node.kind.isVar = false
    rw [hkind]
    rfl

theorem puts_exportedClass {definition : ClassFragment} (h : definition.Sound False)
    (windowStart : Nat) (status : ExportStatus) (name : Option Ident) :
    Puts scope (exportedClass definition windowStart status name) (·.kind.isVar = false) := by
  refine .after (sees_classNode name h) fun node hkind => .exportIf ?_ fun _ _ _ => rfl
  rw [hkind]
  rfl

theorem puts_classDeclaration {definition : ClassFragment} (name : Ident)
    (h : definition.Sound False) :
    Puts scope (classDeclaration name definition) (·.kind.isVar = false) := by
  rw [classDeclaration]
  refine .after (.note _) fun _ _ => .after .gapStart fun windowStart _ => ?_
  split
  · exact puts_exportedClass h _ _ _
  · exact .after (.exportStatus _) fun status _ => puts_exportedClass h _ _ _

end Rule

/-! ## Bindings -/

/-- A binding that declares no function leaves nodes of variables behind only if it is one. -/
theorem Binding.declares {binding : Binding} (hplain : binding.isFunctionDeclaration = false)
    (scope : Scope) : DeclaresAll scope [binding.name.range] binding.recover := by
  obtain ⟨range, name, init, kind, isFunctionDeclaration⟩ := binding
  cases hplain
  have hrule : ∀ init : Option Fragment, (∀ part ∈ init, part.Sound False) →
      DeclaresAll scope [name.range] (Rule.binding ⟨range, name, init, kind, false⟩) := by
    intro init hinit
    refine .after (.note _) fun _ _ => ?_
    split
    · exact .ofOther (Rule.puts_defaultExport hinit)
    · exact Rule.declares_variableBinding hinit
  unfold Binding.recover
  split
  · next definition _ _ heq =>
    cases heq
    have hclass := definition.sound False
    split
    · exact .ofOther (Rule.puts_classDeclaration _ hclass)
    · refine hrule _ ?_
      rintro part ⟨⟩
      exact ((Expr.classDef definition).sound False).builds
  · next heq =>
    cases heq
    exact hrule _ (optionalFragment_sound False init)

/-! ## Declarations put together -/

namespace Rule

variable {scope : Scope}

theorem decides_expectVar (node : Node) :
    Decides scope (expectVar node) fun _ => node.kind.isVar = true := by
  intro session value last hrun
  rw [expectVar] at hrun
  split at hrun
  · cases hrun
  · next hvar =>
    cases hrun
    exact ⟨rfl, by simpa using hvar⟩

/-- Only nodes of variables are put together. All their declarators are kept, in order, and none of
them has a semicolon of its own any more. -/
theorem decides_combineDeclarations (nodes : List Node) :
    Decides scope (combineDeclarations nodes) fun combined => AllVar nodes ∧
      match combined with
      | none => nodes = []
      | some var => var.kind.isVar = true ∧ var.ownsSemicolon = false ∧
          var.children = (declaratorsOf nodes).map ({ · with ownsSemicolon := false }) := by
  cases nodes with
  | nil => exact .pure ⟨List.forall_mem_nil _, rfl⟩
  | cons first rest =>
    refine (decides_expectVar first).bind fun _ hfirst => ?_
    -- The fold keeps the declarators of all declarations that it has passed.
    have hstart : first.Combines [first] := by
      refine ⟨hfirst, List.forall_mem_singleton.2 hfirst, ?_⟩
      rw [declaratorsOf, List.flatMap_singleton]
    have hstep : ∀ (combined : Node) passed node, combined.Combines passed →
        Decides scope (appendDeclarators combined node) (·.Combines (passed ++ [node])) := by
      intro combined passed node ⟨hvar, hall, hchildren⟩
      refine (decides_expectVar node).bind fun _ hnode => ?_
      have hspans : Decides scope (node.children.foldlM
          (fun span child => mergeSpans span child.span) combined.span) fun _ => True :=
        Decides.foldlM (fun _ _ => True) [] trivial
          fun _ _ _ _ => Decides.mergeSpans _ _
      refine hspans.bind fun span _ => .pure ⟨hvar, ?_, ?_⟩
      · exact allVar_concat.2 ⟨hall, hnode⟩
      · rw [declaratorsOf_concat, hchildren]
    refine (Decides.foldlM Node.Combines [first] hstart hstep).bind
      fun combined ⟨hvar, hall, hchildren⟩ => .pure ⟨hall, hvar, rfl, ?_⟩
    show combined.children.map _ = _
    rw [hchildren]
    rfl

end Rule

/-! ## Loops -/

/-- What kind of loop this is a node of. -/
def NodeKind.loopKind? : NodeKind → Option LoopKind
  | .forLoop .. => some .classic
  | .forIn .. => some .keys
  | .forOf .. => some .values
  | _ => none

namespace ForLoop

variable {loop : ForLoop} {scope : Scope} {var : Node}

/-- What is recovered in a loop behind the declarations of its header. -/
def recoverBehind (loop : ForLoop) : NodeKind → Recover Unit
  | .forLoop _ semi1 semi2 _ => do
    Rule.clause (optionalFragment loop.test) semi1.span.start
    Rule.clause (optionalFragment loop.update) semi2.span.start
    Rule.loopBody ⟨loop.body.range, loop.body.recover⟩
  | .forIn _ keyword _ | .forOf _ keyword _ => do
    Rule.clause (optionalFragment loop.update) keyword.span.last
    Rule.loopBody ⟨loop.body.range, loop.body.recover⟩
  | _ => pure ()

/-- The node is one of the loop. Its first child are the given declarations, and the others are what
is recovered behind them. -/
structure Heads (loop : ForLoop) (scope : Scope) (stack : Stack) (var node : Node) : Prop where
  kind : node.kind.loopKind? = some loop.kind
  others : ∃ span opened closed others,
    opened.stack = stack.push (.branch node.kind span [var]) ∧
      (loop.recoverBehind node.kind).outcome scope opened = (.ok (), closed) ∧
      closed.stack.children = var :: others ∧ node.children = var :: others

theorem sound_behind (loop : ForLoop) (kind : NodeKind) :
    Builds False false (loop.recoverBehind kind) := by
  have hclause : ∀ (expr : Option Expr) (placeholder : Nat),
      Builds False false (Rule.clause (optionalFragment expr) placeholder) :=
    fun expr placeholder => Rule.sound_clause placeholder (optionalFragment_sound False expr)
  have hbody : Builds False false (Rule.loopBody ⟨loop.body.range, loop.body.recover⟩) :=
    Rule.sound_loopBody (loop.body.sound False)
  cases kind with
  | forLoop lparen semi1 semi2 rparen =>
    exact (hclause _ _).andThen ((hclause _ _).andThen hbody)
  | forIn lparen keyword rparen => exact (hclause _ _).andThen hbody
  | forOf lparen keyword rparen => exact (hclause _ _).andThen hbody
  | _ => exact .pure fun _ => trivial

/-- A clause of a loop header is one node. -/
theorem attach_of_clause {expr : Option Expr} {placeholder : Nat} {session last : Session}
    (hskips : session.skipsName = false)
    (hrun : (Rule.clause (optionalFragment expr) placeholder).outcome scope session =
      (.ok (), last)) : ∃ node, last.stack = session.stack.attach node := by
  cases expr with
  | none =>
    cases hrun
    exact ⟨_, rfl⟩
  | some expr => exact Expr.exists_attach hskips hrun

/-- The declarations stay in front. What follows them may change the last child, but by then this is
the next clause. -/
theorem children_behind {kind : NodeKind} (hkind : kind.loopKind? = some loop.kind)
    {opened closed : Session}
    (hrun : (loop.recoverBehind kind).outcome scope opened = (.ok (), closed))
    (hskips : opened.skipsName = false) (hchildren : opened.stack.children = [var]) :
    ∃ others, closed.stack.children = var :: others := by
  -- A clause attaches one node, and what follows changes no child but the last.
  have hclause : ∀ (expr : Option Expr) (placeholder : Nat) (next : Recover Unit),
      Builds False false next → (do
        Rule.clause (optionalFragment expr) placeholder
        next).outcome scope opened = (.ok (), closed) →
      ∃ others, closed.stack.children = var :: others := by
    intro expr placeholder next hnext hrun
    obtain ⟨_, later, hfirst, hsecond⟩ := ok_of_bind hrun
    obtain ⟨node, hstack⟩ := attach_of_clause hskips hfirst
    have hkept := (hnext.kept scope later False.elim).frame.children rfl
    rw [hsecond, hstack, Stack.attach_eq_setChildren, Stack.children_setChildren,
      hchildren] at hkept
    obtain ⟨others, hothers⟩ := hkept
    exact ⟨others, hothers.symm⟩
  have hbody : Builds False false (Rule.loopBody ⟨loop.body.range, loop.body.recover⟩) :=
    Rule.sound_loopBody (loop.body.sound False)
  cases kind with
  | forLoop lparen semi1 semi2 rparen =>
    refine hclause _ _ _ (Sound.andThen ?_ hbody) hrun
    exact Rule.sound_clause _ (optionalFragment_sound False loop.update)
  | forIn lparen keyword rparen => exact hclause _ _ _ hbody hrun
  | forOf lparen keyword rparen => exact hclause _ _ _ hbody hrun
  | _ => cases hkind

/-- A node of the loop that is opened for the declarations, and then for what is behind them. -/
theorem heads_of_enter (kind : NodeKind) (span : Span) (count : Nat) {session last : Session}
    (hkind : kind.loopKind? = some loop.kind) (hskips : session.skipsName = false)
    (hrun : (enter (.leaf kind span) do
      attach var
      loop.recoverBehind kind
      expectChildren count).outcome scope session = (.ok (), last)) :
    ∃ node, last.stack = session.stack.attach node ∧ loop.Heads scope session.stack var node := by
  obtain ⟨made, later, hwithin, hattach⟩ := ok_of_bind hrun
  cases hattach
  have hbuilds : Builds False true (do
      attach var
      loop.recoverBehind kind
      expectChildren count) :=
    (Sound.attach False.elim).andThen
      ((loop.sound_behind kind).relax.andThen (.expectChildren count))
  obtain ⟨hstack, hmade⟩ := Sees.within hbuilds session made later hwithin
  -- The run is taken apart: the declarations are attached, then the rest runs, then the count is
  -- checked.
  obtain ⟨inner, closed, hbody, hopened, -, -, -, -, hcover⟩ := ok_of_within hwithin
  obtain ⟨_, opened, hvar, hbody⟩ := ok_of_bind hbody
  cases hvar
  obtain ⟨_, filled, hbehind, hcount⟩ := ok_of_bind hbody
  have hsame : inner.stack = filled.stack := (Sees.expectChildren count filled () inner hcount).1
  obtain ⟨others, hothers⟩ := children_behind hkind hbehind hskips rfl
  have hclosed : closed.children = var :: others := by
    rw [← hothers, ← hsame, Stack.children, Stack.current, hopened]
  obtain ⟨wide, rfl⟩ := Node.eq_of_cover hcover
  refine ⟨_, congrArg (Stack.attach · _) hstack, ?_⟩
  constructor
  · rw [hmade]
    exact hkind
  · let opened := session.opening (.leaf kind span)
    refine ⟨span, { opened with stack := opened.stack.attach var }, filled, others, ?_, ?_, hothers,
      hclosed⟩
    · rw [hmade]
      rfl
    · rw [hmade]
      exact hbehind

/-- A loop that is given declarations has them for its first child. -/
theorem heads_of_forLoop {session last : Session} (hskips : session.skipsName = false)
    (hrun : (Rule.forLoop loop.fragment (some var)).outcome scope session = (.ok (), last)) :
    ∃ node, last.stack = session.stack.attach node ∧ loop.Heads scope session.stack var node := by
  obtain ⟨range, kind, init, test, update, body⟩ := loop
  rw [ForLoop.fragment, Rule.forLoop] at hrun
  -- All searches look at the text only, so that the stack is still the one of the start when the
  -- node is opened.
  obtain ⟨span, sized, -, hskips, hsized, hrun⟩ := ok_of_look (Looks.rangeSpan _ _) hskips hrun
  obtain ⟨lparen, placed, -, hskips, hplaced, hrun⟩ := ok_of_look (Looks.find _ _ _ _) hskips hrun
  rw [← hsized, ← hplaced]
  have hranging : kind = .keys ∨ kind = .values → ∀ initEnd,
      (Rule.rangingLoop (ForLoop.mk range kind init test update body).fragment (some var) span
        lparen initEnd).outcome scope placed = (.ok (), last) →
      ∃ node, last.stack = placed.stack.attach node ∧
        (ForLoop.mk range kind init test update body).Heads scope placed.stack var node := by
    intro hkind initEnd hrun
    obtain ⟨keyword, worded, -, hskips, hworded, hrun⟩ :=
      ok_of_look (Looks.findWord _ _ _ _) hskips hrun
    obtain ⟨rparen, closed, -, hskips, hclosed, hrun⟩ :=
      ok_of_look (Looks.findLast _ _ _ _) hskips hrun
    rw [← hworded, ← hclosed]
    rcases hkind with rfl | rfl
    · refine heads_of_enter (.forIn lparen keyword rparen) span 3 rfl hskips ?_
      simp only [recoverBehind, bind_assoc]
      exact hrun
    · refine heads_of_enter (.forOf lparen keyword rparen) span 3 rfl hskips ?_
      simp only [recoverBehind, bind_assoc]
      exact hrun
  cases kind with
  | classic =>
    obtain ⟨semi1, first, -, hskips, hfirst, hrun⟩ := ok_of_look (Looks.find _ _ _ _) hskips hrun
    obtain ⟨semi2, second, -, hskips, hsecond, hrun⟩ := ok_of_look (Looks.find _ _ _ _) hskips hrun
    obtain ⟨rparen, closed, -, hskips, hclosed, hrun⟩ :=
      ok_of_look (Looks.findLast _ _ _ _) hskips hrun
    rw [← hfirst, ← hsecond, ← hclosed]
    refine heads_of_enter (.forLoop lparen semi1 semi2 rparen) span 4 rfl hskips ?_
    simp only [recoverBehind, bind_assoc]
    exact hrun
  | keys => exact hranging (.inl rfl) _ hrun
  | values => exact hranging (.inr rfl) _ hrun

/-- Only bindings are taken into a header. -/
theorem exists_binding_of_mem_header {statements : List Stmt} {statement : Stmt}
    (h : statement ∈ loop.header statements) : ∃ binding, statement = .binding binding := by
  have hclaims := List.mem_rtakeWhile_imp h
  cases statement with
  | binding binding => exact ⟨binding, rfl⟩
  | _ => cases hclaims

end ForLoop

/-- Where the name stands that a statement declares, if it is a binding. -/
def Stmt.nameRange? : Stmt → Option Range
  | .binding definition => some definition.name.range
  | _ => none

/-- The statement is a binding, and the node the declarator that it has become in a loop header. -/
structure Stmt.IsDeclaredBy (statement : Stmt) (node : Node) : Prop where
  declares : ∃ name, statement.nameRange? = some name ∧ node.DeclaresAt name
  ownsSemicolon : node.ownsSemicolon = false

/-- Declarators that are taken over into a loop header are still those of the same names. -/
theorem isDeclaredBy_map {statements : List Stmt} {names : List Range} {declarators : List Node}
    (hnames : statements.map Stmt.nameRange? = names.map some)
    (h : List.Forall₂ Node.DeclaresAt declarators names) :
    List.Forall₂ Stmt.IsDeclaredBy statements
      (declarators.map ({ · with ownsSemicolon := false })) := by
  induction h generalizing statements with
  | nil =>
    rw [List.map_nil, List.map_eq_nil_iff] at hnames
    subst hnames
    exact .nil
  | @cons declarator name declarators names hdeclares _ ih =>
    cases statements with
    | nil => cases hnames
    | cons statement rest =>
      obtain ⟨hname, hrest⟩ := List.cons_eq_cons.1 hnames
      refine .cons ⟨⟨name, hname, ?_⟩, rfl⟩ (ih hrest)
      exact ⟨hdeclares.kind, hdeclares.around⟩

/-- Bindings that are recovered aside. If they leave nothing but nodes of variables behind, these
have one declarator for each of them. -/
theorem declarators_of_bindings {statements : List Stmt} (scope : Scope)
    (hbindings : ∀ statement ∈ statements,
      ∃ binding, statement = .binding binding ∧ binding.isFunctionDeclaration = false) :
    ∃ names, statements.map Stmt.nameRange? = names.map some ∧
      DeclaresAll scope names (statements.forM Stmt.recover) := by
  induction statements with
  | nil => exact ⟨[], rfl, .nil⟩
  | cons statement rest ih =>
    obtain ⟨⟨binding, rfl, hplain⟩, hrest⟩ := List.forall_mem_cons.1 hbindings
    obtain ⟨names, hnames, hdeclares⟩ := ih hrest
    refine ⟨binding.name.range :: names, congrArg (_ :: ·) hnames, ?_⟩
    exact (Binding.declares hplain scope).andThen hdeclares

/-- Bindings that are recovered below a node of their own. If there is nothing else below it than
nodes of variables, then their declarators are those of the bindings, and no name is to be
skipped. -/
theorem declared_within {statements : List Stmt} {scope : Scope} (hnonempty : statements ≠ [])
    (hbindings : ∀ statement ∈ statements,
      ∃ binding, statement = .binding binding ∧ binding.isFunctionDeclaration = false)
    {kind : NodeKind} {span : Span} {session last : Session} {collected : Node}
    (hrun : (within (.leaf kind span) (statements.forM Stmt.recover)).outcome scope session =
      (.ok collected, last)) (hvars : AllVar collected.children) :
    last.skipsName = false ∧ List.Forall₂ Stmt.IsDeclaredBy statements
      ((declaratorsOf collected.children).map ({ · with ownsSemicolon := false })) := by
  obtain ⟨names, hnames, hdeclares⟩ := declarators_of_bindings scope hbindings
  obtain ⟨inner, closed, haside, hopened, -, -, -, hskips, hcover⟩ := ok_of_within hrun
  obtain ⟨nodes, hnodes, hdeclared⟩ := hdeclares _ inner haside
  have hchildren : collected.children = nodes := by
    have hinner : inner.stack.children = nodes := by
      rw [hnodes, Stack.children_setChildren]
    obtain ⟨wide, rfl⟩ := Node.eq_of_cover hcover
    rw [← hinner, Stack.children, Stack.current, hopened]
  rw [hchildren] at hvars ⊢
  -- aside there are no children at first, so all declarators are those of the bindings
  obtain ⟨-, hskipped, declarators, hdeclarators, hall⟩ := hdeclared hvars
  have heq : declaratorsOf nodes = declarators := hall
  constructor
  · rw [hskips, hskipped]
    cases names with
    | nil => exact absurd (List.map_eq_nil_iff.1 hnames) hnonempty
    | cons name rest => rfl
  · rw [heq]
    exact isDeclaredBy_map hnames hdeclarators

/-- A block without braces has a loop at its end, with declarations in the header. If the block is
recovered, then what is in front of the header is recovered first. One node follows, that of the
loop. Its first child is a node of variables with a declarator for each declaration of the header,
in order, and without semicolons. Nothing else in the loop comes from the header. -/
theorem header_moves_into_loop {range : Range} {statements : List Stmt} {loop : ForLoop}
    {scope : Scope} {session last : Session} (hloop : closingLoop? statements = some loop)
    (hheader : loop.header statements ≠ [])
    (hplain : ∀ binding, .binding binding ∈ loop.header statements →
      binding.isFunctionDeclaration = false)
    (hrun : (Block.mk range .synthetic statements).recover.outcome scope session = (.ok (), last)) :
    ∃ between node var,
      ((loop.front statements).forM Stmt.recover).outcome scope session = (.ok (), between) ∧
      last.stack = between.stack.attach node ∧ loop.Heads scope between.stack var node ∧
      var.kind.isVar = true ∧ var.ownsSemicolon = false ∧
      List.Forall₂ Stmt.IsDeclaredBy (loop.header statements) var.children := by
  rw [Block.recover, Rule.block, Rule.syntheticBlock_of_loop hloop] at hrun
  obtain ⟨_, between, hfront, hrun⟩ := ok_of_bind hrun
  rw [if_neg (by simpa using hheader), Rule.declaringLoop, Rule.forM_build] at hrun
  obtain ⟨_, noted, hnote, hrun⟩ := ok_of_bind hrun
  obtain ⟨span, sized, hsize, hrun⟩ := ok_of_bind hrun
  obtain ⟨collected, gathered, hwithin, hrun⟩ := ok_of_bind hrun
  obtain ⟨combined, later, hcombine, hrun⟩ := ok_of_bind hrun
  have hnoted : noted.stack = between.stack := (Sees.note _ between () noted hnote).1
  have hsized : sized.stack = noted.stack := (Sees.fits _ _ noted span sized hsize).1
  have hbuilds : Builds False true ((loop.header statements).forM Stmt.recover) :=
    Sound.forM fun statement _ => (statement.sound False).relax
  have hgathered : gathered.stack = sized.stack :=
    (Sees.within hbuilds sized collected gathered hwithin).1
  obtain ⟨rfl, hvars, hcombined⟩ :=
    Rule.decides_combineDeclarations _ gathered combined later hcombine
  have hbindings : ∀ statement ∈ loop.header statements,
      ∃ binding, statement = .binding binding ∧ binding.isFunctionDeclaration = false := by
    intro statement hstatement
    obtain ⟨binding, rfl⟩ := ForLoop.exists_binding_of_mem_header hstatement
    exact ⟨binding, rfl, hplain binding hstatement⟩
  obtain ⟨hskips, hdeclared⟩ := declared_within hheader hbindings hwithin hvars
  cases combined with
  | none =>
    -- without any node there would be no declarator
    dsimp only at hcombined
    rw [hcombined] at hdeclared
    exact absurd (List.forall₂_nil_right_iff.1 hdeclared) hheader
  | some var =>
    obtain ⟨hvar, hflag, hchildren⟩ := hcombined
    obtain ⟨node, hstack, hheads⟩ := ForLoop.heads_of_forLoop hskips hrun
    rw [hgathered, hsized, hnoted] at hstack hheads
    refine ⟨between, node, var, hfront, hstack, hheads, hvar, hflag, ?_⟩
    rw [hchildren]
    exact hdeclared

/-- A loop without a test and an update, in front of which its declarations stand. -/
def ForLoop.endless : ForLoop :=
  ⟨⟨7, 36⟩, .classic, none, none, none,
    ⟨⟨34, 36⟩, .synthetic, [.expression ⟨34, 36⟩ (.ident ⟨⟨34, 35⟩, "y", false, false⟩)]⟩⟩

/-- The two declarations of its header. -/
def ForLoop.endlessHeader : List Stmt :=
  [.binding ⟨⟨16, 21⟩, ⟨⟨16, 17⟩, "i", false, false⟩, some (.literal ⟨20, 21⟩ .number), .let,
      false⟩,
    .binding ⟨⟨23, 28⟩, ⟨⟨23, 24⟩, "j", false, false⟩, some (.literal ⟨27, 28⟩ .number), .let,
      false⟩]

/-- Of three declarations in front of it the loop takes two. -/
theorem header_moves_into_endless :
    let first : Stmt := .binding ⟨⟨4, 5⟩, ⟨⟨4, 5⟩, "x", false, false⟩, none, .var, false⟩
    let statements := first :: ForLoop.endlessHeader ++ [.forLoop ForLoop.endless]
    let scope := Scope.of "var x; for (let i = 0, j = 1; ; ) y;" none .unforgiving
    let session := Session.start scope.source
    closingLoop? statements = some ForLoop.endless ∧
      ForLoop.endless.header statements = ForLoop.endlessHeader ∧
      ∃ last between node var,
        (Block.mk ⟨0, 36⟩ .synthetic statements).recover.outcome scope session = (.ok (), last) ∧
        ([first].forM Stmt.recover).outcome scope session = (.ok (), between) ∧
        last.stack = between.stack.attach node ∧
        node.children.head? = some var ∧ var.children.length = 2 := by
  intro first statements scope session
  have hheader : ForLoop.endless.header statements = ForLoop.endlessHeader := rfl
  have hplain : ∀ binding, .binding binding ∈ ForLoop.endless.header statements →
      binding.isFunctionDeclaration = false := by
    intro binding hmem
    rw [hheader, ForLoop.endlessHeader] at hmem
    simp only [List.mem_cons, Stmt.binding.injEq, List.not_mem_nil, or_false] at hmem
    rcases hmem with rfl | rfl <;> rfl
  let block : Block := ⟨⟨0, 36⟩, .synthetic, statements⟩
  have hrun : block.recover.outcome scope session =
      (.ok (), (block.recover.outcome scope session).2) := Prod.ext (by decide +kernel) rfl
  obtain ⟨between, node, var, hfront, hstack, hheads, -, -, hdeclared⟩ :=
    header_moves_into_loop rfl (hheader ▸ List.cons_ne_nil _ _) hplain hrun
  obtain ⟨_, _, _, others, -, -, -, hchildren⟩ := hheads.others
  refine ⟨rfl, hheader, _, between, node, var, hrun, hfront, hstack, ?_, ?_⟩
  · rw [hchildren, List.head?_cons]
  · rw [← hdeclared.length_eq, hheader]
    rfl

end Concretion
