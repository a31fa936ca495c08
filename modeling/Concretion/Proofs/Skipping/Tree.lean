import Concretion.Proofs.Attaching
import Concretion.Proofs.Skipping.Rules

/-!
# Expressions are single nodes

By induction on the abstract tree: if functions declare their names only where a binding says so,
no expression, statement or block leaves a name to be skipped behind. So an expression that starts
without one leaves a single node and nothing else.

- `Expr.Quiet`: what the induction carries for an expression.
- `Expr.quiet`, `Stmt.quiet`, `Block.quiet`: whole constructs keep quiet.
- `Expr.recovers_single_node`: what is left of an expression.
-/

namespace Concretion

open Recover

variable (scope : Scope)

/-! ## Default values

The default value of a parameter lies three levels below the statement that sets it, and it is
recovered on its own. -/

/-- The first branch of a conditional keeps quiet. -/
def Expr.BranchQuiet : Expr → Prop
  | .conditional _ _ value _ => Recover.Quiet scope value.recover
  | _ => True

/-- What the expression may set as a default value keeps quiet. -/
def Expr.DefaultQuiet : Expr → Prop
  | .binary _ _ _ right => right.BranchQuiet scope
  | _ => True

/-- An expression keeps quiet, and so does the default value it may set. -/
structure Expr.Quiet (expr : Expr) : Prop where
  builds : Recover.Quiet scope expr.recover
  branch : expr.BranchQuiet scope
  default : expr.DefaultQuiet scope

theorem initialisers_cons_quiet {statement : Stmt} {rest : List Stmt}
    (h : ∀ range expr, statement = .expression range expr → expr.DefaultQuiet scope)
    (hrest : ∀ found ∈ initialisers rest, ∀ value ∈ found, value.2.Quiet scope) :
    ∀ found ∈ initialisers (statement :: rest), ∀ value ∈ found, value.2.Quiet scope :=
  forall_initialisers_cons (fun _ _ _ _ _ _ _ _ hset => h _ _ hset) hrest

/-! ## The induction -/

mutual

theorem Expr.quiet (expr : Expr) (h : expr.meets .bound = true) : expr.Quiet scope := by
  cases expr with
  | ident name => exact ⟨(Rule.answers_ident name).quiet, trivial, trivial⟩
  | literal range value => exact ⟨Rule.quiet_literal range value, trivial, trivial⟩
  | array range elements =>
    exact ⟨Rule.quiet_array range (elementFragments_quiet elements h), trivial, trivial⟩
  | unary range operator operand =>
    exact ⟨Rule.quiet_unary range operator (operand.quiet h).builds, trivial, trivial⟩
  | binary range operator left right =>
    obtain ⟨hleft, hright⟩ := Bool.and_eq_true_iff.1 h
    have hl := left.quiet hleft
    have hr := right.quiet hright
    -- a default value is the first branch of the right operand
    exact ⟨Rule.quiet_binary range operator hl.builds hr.builds, trivial, hr.branch⟩
  | conditional range test consequent alternate =>
    obtain ⟨htest, hbranches⟩ := Bool.and_eq_true_iff.1 h
    obtain ⟨hconsequent, halternate⟩ := Bool.and_eq_true_iff.1 hbranches
    have hc := (consequent.quiet hconsequent).builds
    refine ⟨?_, hc, trivial⟩
    exact Rule.quiet_conditional range (test.quiet htest).builds hc
      (alternate.quiet halternate).builds
  | call range callee arguments =>
    obtain ⟨hcallee, harguments⟩ := Bool.and_eq_true_iff.1 h
    refine ⟨?_, trivial, trivial⟩
    exact Rule.quiet_call range (callee.quiet hcallee).builds
      (argumentFragments_quiet arguments harguments)
  | access range base property =>
    exact ⟨Rule.quiet_access range property (base.quiet h).builds, trivial, trivial⟩
  | index range base index =>
    obtain ⟨hbase, hindex⟩ := Bool.and_eq_true_iff.1 h
    refine ⟨?_, trivial, trivial⟩
    exact Rule.quiet_index range (base.quiet hbase).builds (index.quiet hindex).builds
  | object range members =>
    exact ⟨Rule.quiet_object range (memberBuilds_quiet members h), trivial, trivial⟩
  | functionDef definition =>
    obtain ⟨hoperand, hdefinition⟩ := Bool.and_eq_true_iff.1 h
    -- here the function stands on its own, so it must not declare its name
    have hdeclares : definition.declares = false := Bool.not_eq_eq_eq_not.1 hoperand
    refine ⟨?_, trivial, trivial⟩
    exact Rule.quiet_functionExpression (definition.quiet hdefinition)
      (definition.declares_fragment.trans hdeclares)
  | classDef definition =>
    exact ⟨Rule.quiet_classExpression (definition.quiet h), trivial, trivial⟩
termination_by structural expr

theorem elementFragments_quiet (elements : List (Option Expr))
    (h : elementsMeet .bound elements = true) :
    ∀ element ∈ elementFragments elements, ∀ part ∈ element, part.Quiet scope := by
  match elements with
  | [] => exact List.forall_mem_nil _
  | none :: rest =>
    refine List.forall_mem_cons.2 ⟨?_, elementFragments_quiet rest h⟩
    rintro part ⟨⟩
  | some element :: rest =>
    obtain ⟨helement, hrest⟩ := Bool.and_eq_true_iff.1 h
    refine List.forall_mem_cons.2 ⟨?_, elementFragments_quiet rest hrest⟩
    rintro part ⟨⟩
    exact (element.quiet helement).builds
termination_by structural elements

theorem argumentFragments_quiet (arguments : List Expr)
    (h : argumentsMeet .bound arguments = true) :
    ∀ argument ∈ argumentFragments arguments, argument.Quiet scope := by
  match arguments with
  | [] => exact List.forall_mem_nil _
  | argument :: rest =>
    obtain ⟨hargument, hrest⟩ := Bool.and_eq_true_iff.1 h
    refine List.forall_mem_cons.2 ⟨?_, argumentFragments_quiet rest hrest⟩
    exact (argument.quiet hargument).builds
termination_by structural arguments

theorem optionalFragment_quiet (expr : Option Expr) (h : optionalMeets .bound expr = true) :
    ∀ part ∈ optionalFragment expr, part.Quiet scope := by
  match expr with
  | none => rintro part ⟨⟩
  | some expr =>
    rintro part ⟨⟩
    exact (expr.quiet h).builds
termination_by structural expr

theorem Member.quiet (member : Member) (h : member.meets .bound = true) :
    member.fragment.Quiet scope := by
  match member with
  | ⟨_, key, value, getter, setter, _, _⟩ =>
    obtain ⟨hkey, hrest⟩ := Bool.and_eq_true_iff.1 h
    obtain ⟨hvalue, haccessors⟩ := Bool.and_eq_true_iff.1 hrest
    obtain ⟨hgetter, hsetter⟩ := Bool.and_eq_true_iff.1 haccessors
    constructor
    · exact (key.quiet hkey).builds
    · exact memberValue_quiet value hvalue
    · exact accessorFragment_quiet getter hgetter
    · exact accessorFragment_quiet setter hsetter
termination_by structural member

theorem memberValue_quiet (value : Option Expr) (h : optionalMeets .bound value = true) :
    ∀ part ∈ memberValue value, part.Quiet scope := by
  match value with
  | none => rintro part ⟨⟩
  | some value =>
    have hvalue := (value.quiet h).builds
    cases value with
    | functionDef definition =>
      have hmeets : (Expr.functionDef definition).meets .bound = true := h
      have hdefinition := definition.quiet (Bool.and_eq_true_iff.1 hmeets).2
      exact forall_memberValue_function hdefinition hvalue
    | _ =>
      rintro part ⟨⟩
      exact hvalue
termination_by structural value

theorem accessorFragment_quiet (accessor : Option FunctionDef)
    (h : accessorMeets .bound accessor = true) :
    ∀ function ∈ accessorFragment accessor, function.Quiet scope := by
  match accessor with
  | none => rintro part ⟨⟩
  | some definition =>
    rintro part ⟨⟩
    exact definition.quiet h
termination_by structural accessor

theorem memberBuilds_quiet (members : List Member) (h : membersMeet .bound members = true) :
    ∀ build ∈ memberBuilds members, Recover.Quiet scope build := by
  match members with
  | [] => exact List.forall_mem_nil _
  | member :: rest =>
    obtain ⟨hmember, hrest⟩ := Bool.and_eq_true_iff.1 h
    refine List.forall_mem_cons.2 ⟨?_, memberBuilds_quiet rest hrest⟩
    exact Rule.quiet_member (member.quiet hmember)
termination_by structural members

theorem elementBuilds_quiet (members : List Member) (h : membersMeet .bound members = true) :
    ∀ element ∈ elementBuilds members, Recover.Quiet scope element.build := by
  match members with
  | [] => exact List.forall_mem_nil _
  | member :: rest =>
    obtain ⟨hmember, hrest⟩ := Bool.and_eq_true_iff.1 h
    refine List.forall_mem_cons.2 ⟨?_, elementBuilds_quiet rest hrest⟩
    exact Rule.quiet_member (member.quiet hmember)
termination_by structural members

theorem FunctionDef.quiet (definition : FunctionDef) (h : definition.meets .bound = true) :
    definition.fragment.Quiet scope := by
  match definition with
  | ⟨_, _, _, parameters, body, _, _, _, _⟩ =>
    have hbody : body.meets .bound = true := h
    constructor
    · exact body.quiet hbody
    · exact body.defaults_quiet hbody
termination_by structural definition

theorem ClassDef.quiet (definition : ClassDef) (h : definition.meets .bound = true) :
    definition.fragment.Quiet scope := by
  match definition with
  | ⟨_, _, heritage, none, elements⟩ =>
    obtain ⟨hheritage, helements⟩ := Bool.and_eq_true_iff.1 h
    constructor
    · exact optionalFragment_quiet heritage hheritage
    · exact elementBuilds_quiet elements helements
  | ⟨range, name, heritage, some member, elements⟩ =>
    obtain ⟨hheritage, hmembers⟩ := Bool.and_eq_true_iff.1 h
    obtain ⟨hwritten, helements⟩ := Bool.and_eq_true_iff.1 hmembers
    have hrest := elementBuilds_quiet elements helements
    constructor
    · exact optionalFragment_quiet heritage hheritage
    · simp only [ClassDef.fragment]
      split
      · exact hrest
      · next himplicit =>
        -- a constructor that was written meets the demand like any other member
        have hmember : member.meets .bound = true :=
          (Bool.or_eq_true_iff.1 hwritten).resolve_left himplicit
        exact List.forall_mem_cons.2 ⟨Rule.quiet_member (member.quiet hmember), hrest⟩
termination_by structural definition

theorem Block.quiet (block : Block) (h : block.meets .bound = true) :
    Recover.Quiet scope block.recover := by
  match block with
  | ⟨range, kind, statements⟩ =>
    exact Rule.quiet_block range kind (statementFragments_quiet statements h)
termination_by structural block

theorem Block.defaults_quiet (block : Block) (h : block.meets .bound = true) :
    ∀ value ∈ block.defaults, value.2.Quiet scope := by
  match block with
  | ⟨_, .parameter, statements⟩ =>
    have hvalues := initialisers_quiet statements h
    intro value hvalue
    obtain ⟨found, hfound, heq⟩ := List.mem_filterMap.1 hvalue
    exact hvalues found (List.dropLast_subset _ hfound) value heq
  | ⟨_, .braced, _⟩ => exact List.forall_mem_nil _
  | ⟨_, .synthetic, _⟩ => exact List.forall_mem_nil _
termination_by structural block

theorem initialisers_quiet (statements : List Stmt)
    (h : statementsMeet .bound statements = true) :
    ∀ found ∈ initialisers statements, ∀ value ∈ found, value.2.Quiet scope := by
  match statements with
  | [] => exact List.forall_mem_nil _
  | statement :: rest =>
    obtain ⟨hstatement, hrest⟩ := Bool.and_eq_true_iff.1 h
    refine initialisers_cons_quiet scope ?_ (initialisers_quiet rest hrest)
    cases statement with
    | expression _ expr =>
      have hexpr := expr.quiet hstatement
      rintro _ _ ⟨⟩
      exact hexpr.default
    | _ => rintro _ _ ⟨⟩
termination_by structural statements

theorem statementFragments_quiet (statements : List Stmt)
    (h : statementsMeet .bound statements = true) :
    ∀ statement ∈ statementFragments statements, statement.Quiet scope := by
  match statements with
  | [] => exact List.forall_mem_nil _
  | statement :: rest =>
    obtain ⟨hstatement, hrest⟩ := Bool.and_eq_true_iff.1 h
    have hbuild := statement.quiet hstatement
    have hfragments := statementFragments_quiet rest hrest
    cases statement with
    | forLoop loop =>
      have hloop := loop.quiet hstatement
      refine List.forall_mem_cons.2 ⟨⟨hbuild, ?_⟩, hfragments⟩
      rintro found ⟨⟩
      exact hloop
    | _ =>
      refine List.forall_mem_cons.2 ⟨⟨hbuild, ?_⟩, hfragments⟩
      rintro found ⟨⟩
termination_by structural statements

theorem optionalBlock_quiet (block : Option Block) (h : blockMeets .bound block = true) :
    ∀ part ∈ optionalBlock block, part.Quiet scope := by
  match block with
  | none => rintro part ⟨⟩
  | some block =>
    rintro part ⟨⟩
    exact block.quiet h
termination_by structural block

theorem Stmt.quiet (statement : Stmt) (h : statement.meets .bound = true) :
    Recover.Quiet scope statement.recover := by
  match statement with
  | .binding definition => exact definition.quiet h
  | .expression _ expr => exact Rule.quiet_expressionStatement (expr.quiet h).builds
  | .block body => exact body.quiet h
  | .empty range => exact Rule.quiet_emptyStatement range
  | .ifElse range test pass fail =>
    obtain ⟨htest, hblocks⟩ := Bool.and_eq_true_iff.1 h
    obtain ⟨hpass, hfail⟩ := Bool.and_eq_true_iff.1 hblocks
    exact Rule.quiet_ifElse range (test.quiet htest).builds (pass.quiet hpass)
      (optionalBlock_quiet fail hfail)
  | .forLoop loop => exact Rule.quiet_forLoop none (loop.quiet h)
  | .whileLoop range isDo test body =>
    obtain ⟨htest, hbody⟩ := Bool.and_eq_true_iff.1 h
    have ht := (test.quiet htest).builds
    have hb := body.quiet hbody
    simp only [Stmt.recover]
    split
    · exact Rule.quiet_doLoop range ht hb
    · exact Rule.quiet_whileLoop range ht hb
  | .switch range subject cases =>
    obtain ⟨hsubject, hcases⟩ := Bool.and_eq_true_iff.1 h
    exact Rule.quiet_switch range (subject.quiet hsubject).builds (caseBuilds_quiet cases hcases)
  | .tryCatch range body catches finalizer =>
    obtain ⟨-, hparts⟩ := Bool.and_eq_true_iff.1 h
    obtain ⟨hbody, hclauses⟩ := Bool.and_eq_true_iff.1 hparts
    obtain ⟨hcatches, hfinalizer⟩ := Bool.and_eq_true_iff.1 hclauses
    exact Rule.quiet_tryCatch range (body.quiet hbody) (catchBuilds_quiet catches hcatches)
      (optionalBlock_quiet finalizer hfinalizer)
  | .throwValue range value => exact Rule.quiet_throwStatement range (value.quiet h).builds
  | .returnValue range value isGenerated =>
    exact Rule.quiet_returnStatement range isGenerated (optionalFragment_quiet value h)
  | .jump range kind label => exact Rule.quiet_jump range kind label
  | .labelled range label body => exact Rule.quiet_labelled range label (body.quiet h)
  | .withScope range subject body =>
    obtain ⟨hsubject, hbody⟩ := Bool.and_eq_true_iff.1 h
    exact Rule.quiet_withScope range (subject.quiet hsubject).builds (body.quiet hbody)
termination_by structural statement

theorem Binding.quiet (binding : Binding) (h : binding.meets .bound = true) :
    Recover.Quiet scope binding.recover := by
  match binding with
  | ⟨range, name, none, kind, isFunctionDeclaration⟩ => exact Rule.quiet_binding _
  | ⟨range, name, some value, kind, isFunctionDeclaration⟩ =>
    -- only a class may take the place of its binding; other values have the name behind them
    cases value with
    | classDef definition =>
      have hdefinition := definition.quiet h
      simp only [Binding.recover]
      split
      · exact Rule.quiet_classDeclaration name hdefinition
      · exact Rule.quiet_binding _
    | _ => exact Rule.quiet_binding _
termination_by structural binding

theorem ForLoop.quiet (loop : ForLoop) (h : loop.meets .bound = true) :
    loop.fragment.Quiet scope := by
  match loop with
  | ⟨_, _, init, test, update, body⟩ =>
    obtain ⟨hinit, hrest⟩ := Bool.and_eq_true_iff.1 h
    obtain ⟨htest, hrest⟩ := Bool.and_eq_true_iff.1 hrest
    obtain ⟨hupdate, hbody⟩ := Bool.and_eq_true_iff.1 hrest
    constructor
    · exact optionalFragment_quiet init hinit
    · exact optionalFragment_quiet test htest
    · exact optionalFragment_quiet update hupdate
    · exact body.quiet hbody
termination_by structural loop

theorem caseBuilds_quiet (cases : List SwitchCase) (h : casesMeet .bound cases = true) :
    ∀ clause ∈ caseBuilds cases, Recover.Quiet scope clause.2 := by
  match cases with
  | [] => exact List.forall_mem_nil _
  | clause :: rest =>
    obtain ⟨hclause, hrest⟩ := Bool.and_eq_true_iff.1 h
    exact List.forall_mem_cons.2 ⟨clause.quiet hclause, caseBuilds_quiet rest hrest⟩
termination_by structural cases

theorem SwitchCase.quiet (clause : SwitchCase) (h : clause.meets .bound = true) :
    Recover.Quiet scope clause.recover := by
  match clause with
  | ⟨_, test, statements⟩ =>
    obtain ⟨htest, hstatements⟩ := Bool.and_eq_true_iff.1 h
    exact Rule.quiet_switchCase (optionalFragment_quiet test htest)
      (statementFragments_quiet statements hstatements)
termination_by structural clause

theorem catchBuilds_quiet (catches : List CatchClause) (h : catchesMeet .bound catches = true) :
    ∀ build ∈ catchBuilds catches, Recover.Quiet scope build := by
  match catches with
  | [] => exact List.forall_mem_nil _
  | ⟨range, exception, body⟩ :: rest =>
    obtain ⟨hbody, hrest⟩ := Bool.and_eq_true_iff.1 h
    refine List.forall_mem_cons.2 ⟨?_, catchBuilds_quiet rest hrest⟩
    exact Rule.quiet_catchClause range exception (body.quiet hbody)
termination_by structural catches

end

/-! ## Single nodes -/

/-- An expression attaches a single node if it is recovered, in whatever state, with no name to be
skipped; all that was there before stays as it was, and no name is to be skipped behind it. -/
theorem Expr.recovers_single_node (expr : Expr) (scope : Scope) (session : Session)
    (hbound : expr.meets .bound = true) (hclear : session.skipsName = false) :
    match expr.recover.outcome scope session with
    | (.ok _, later) =>
      (∃ node, later.stack = session.stack.attach node ∧
        later.stack.children = session.stack.children ++ [node]) ∧
      later.skipsName = false
    | (.error _, _) => True := by
  split
  · next later hrun =>
    obtain ⟨node, hstack⟩ := Expr.exists_attach hclear hrun
    have hchildren : later.stack.children = session.stack.children ++ [node] := by
      rw [hstack, Stack.attach_eq_setChildren, Stack.children_setChildren]
    exact ⟨⟨node, hstack, hchildren⟩, (expr.quiet scope hbound).builds session () later hrun hclear⟩
  · trivial

/-- A call with a function that declares another one. -/
def Expr.callback : Expr :=
  let inner : FunctionDef := ⟨⟨16, 32⟩, ⟨⟨25, 26⟩, "g", false, false⟩, .normal, [],
    ⟨⟨29, 32⟩, .braced, []⟩, false, false, true, false⟩
  let body : Block := ⟨⟨14, 44⟩, .braced,
    [.binding ⟨⟨25, 32⟩, inner.name, some (.functionDef inner), .var, true⟩,
      .returnValue ⟨33, 42⟩ (some (.ident ⟨⟨40, 41⟩, "g", false, false⟩)) false]⟩
  .call ⟨0, 45⟩ (.ident ⟨⟨0, 1⟩, "f", false, false⟩)
    [.functionDef
      ⟨⟨2, 44⟩, ⟨⟨2, 10⟩, "", false, false⟩, .normal, [], body, true, false, false, false⟩]

/-- The call is a single node, although the name of a function is skipped in it. -/
theorem callback_is_single_node :
    let scope := Scope.of "f(function () { function g() { } return g; });" none
      ⟨.skipTrivia, true, false⟩
    let session := Session.start scope.source
    Expr.callback.meets .bound = true ∧ session.skipsName = false ∧
      (Expr.callback.recover.outcome scope session).1.isOk = true ∧
      (Expr.callback.recover.outcome scope session).2.journal.any (· matches .bindingSkipped "g") ∧
      match Expr.callback.recover.outcome scope session with
      | (.ok _, later) =>
        (∃ node, later.stack = session.stack.attach node ∧
          later.stack.children = session.stack.children ++ [node]) ∧
        later.skipsName = false
      | (.error _, _) => True := by
  intro scope session
  have hbound : Expr.callback.meets .bound = true := by decide +kernel
  exact ⟨hbound, rfl, by decide +kernel, by decide +kernel,
    Expr.recovers_single_node Expr.callback scope session hbound rfl⟩

end Concretion
