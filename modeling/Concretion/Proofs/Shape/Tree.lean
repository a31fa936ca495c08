import Concretion.Proofs.Shape.Items
import Concretion.Recovery.Program

/-!
# Trees are recovered as well-shaped trees

By induction on the abstract tree: each construct is recovered by a rule, and what a rule attaches
is well-shaped if what the parts attach is. The demand that functions declare their names only where
a binding says so is taken along to all parts. So is the one that the blocks of `try` statements
have braces.

- `Expr.Shaped`, `Block.Shaped`: what the induction carries for an expression and for a block.
- `Expr.shaped`, `Stmt.shaped`, `Block.shaped`: the recovery of whole constructs.
- `Program.shaped_recover`: the recovery of a program.
-/

namespace Concretion

open Recover

variable (scope : Scope)

/-! ## Default values

The default value of a parameter lies three levels below the statement that sets it, and it is
recovered on its own. -/

/-- The first branch of a conditional is well-shaped. -/
def Expr.BranchShaped : Expr → Prop
  | .conditional _ _ value _ => Shapes scope value.recover
  | _ => True

/-- What the expression may set as a default value is well-shaped. -/
def Expr.DefaultShaped : Expr → Prop
  | .binary _ _ _ right => right.BranchShaped scope
  | _ => True

/-- An expression is well-shaped, and so is the default value it may set. -/
structure Expr.Shaped (expr : Expr) : Prop where
  builds : Shapes scope expr.recover
  branch : expr.BranchShaped scope
  default : expr.DefaultShaped scope

/-- A block is well-shaped, and a single node if it has braces. -/
structure Block.Shaped (block : Block) : Prop where
  keeps : KeepsShape scope block.recover
  braced : block.kind = .braced → Shapes scope block.recover

theorem initialisers_cons_shaped {statement : Stmt} {rest : List Stmt}
    (h : ∀ range expr, statement = .expression range expr → expr.DefaultShaped scope)
    (hrest : ∀ found ∈ initialisers rest, ∀ value ∈ found, value.2.Shaped scope) :
    ∀ found ∈ initialisers (statement :: rest), ∀ value ∈ found, value.2.Shaped scope :=
  forall_initialisers_cons (fun _ _ _ _ _ _ _ _ hset => h _ _ hset) hrest

/-! ## The induction -/

mutual

theorem Expr.shaped (expr : Expr) (h : expr.meets .inPlace = true) : expr.Shaped scope := by
  cases expr with
  | ident name => exact ⟨Rule.shapes_ident name, trivial, trivial⟩
  | literal range value => exact ⟨Rule.shapes_literal range value, trivial, trivial⟩
  | array range elements =>
    exact ⟨Rule.shapes_array range (elementFragments_shaped elements h), trivial, trivial⟩
  | unary range operator operand =>
    exact ⟨Rule.shapes_unary range operator (operand.shaped h).builds, trivial, trivial⟩
  | binary range operator left right =>
    obtain ⟨hleft, hright⟩ := Bool.and_eq_true_iff.1 h
    have hl := left.shaped hleft
    have hr := right.shaped hright
    exact ⟨Rule.shapes_binary range operator hl.builds hr.builds, trivial, hr.branch⟩
  | conditional range test consequent alternate =>
    obtain ⟨htest, hbranches⟩ := Bool.and_eq_true_iff.1 h
    obtain ⟨hconsequent, halternate⟩ := Bool.and_eq_true_iff.1 hbranches
    have hc := (consequent.shaped hconsequent).builds
    refine ⟨?_, hc, trivial⟩
    exact Rule.shapes_conditional range (test.shaped htest).builds hc
      (alternate.shaped halternate).builds
  | call range callee arguments =>
    obtain ⟨hcallee, harguments⟩ := Bool.and_eq_true_iff.1 h
    refine ⟨?_, trivial, trivial⟩
    exact Rule.shapes_call range (callee.shaped hcallee).builds
      (argumentFragments_shaped arguments harguments)
  | access range base property =>
    exact ⟨Rule.shapes_access range property (base.shaped h).builds, trivial, trivial⟩
  | index range base index =>
    obtain ⟨hbase, hindex⟩ := Bool.and_eq_true_iff.1 h
    refine ⟨?_, trivial, trivial⟩
    exact Rule.shapes_index range (base.shaped hbase).builds (index.shaped hindex).builds
  | object range members =>
    exact ⟨Rule.shapes_object range (memberBuilds_shaped members h), trivial, trivial⟩
  | functionDef definition =>
    obtain ⟨hoperand, hdefinition⟩ := Bool.and_eq_true_iff.1 h
    have hdeclares : definition.declares = false := Bool.not_eq_eq_eq_not.1 hoperand
    refine ⟨?_, trivial, trivial⟩
    exact Rule.shapes_functionExpression (definition.shaped hdefinition)
      (definition.declares_fragment.trans hdeclares)
  | classDef definition =>
    exact ⟨Rule.shapes_classExpression (definition.shaped h), trivial, trivial⟩
termination_by structural expr

theorem elementFragments_shaped (elements : List (Option Expr))
    (h : elementsMeet .inPlace elements = true) :
    ∀ element ∈ elementFragments elements, ∀ part ∈ element, part.Shaped scope := by
  match elements with
  | [] => exact List.forall_mem_nil _
  | none :: rest =>
    refine List.forall_mem_cons.2 ⟨?_, elementFragments_shaped rest h⟩
    rintro part ⟨⟩
  | some element :: rest =>
    obtain ⟨helement, hrest⟩ := Bool.and_eq_true_iff.1 h
    refine List.forall_mem_cons.2 ⟨?_, elementFragments_shaped rest hrest⟩
    rintro part ⟨⟩
    exact (element.shaped helement).builds
termination_by structural elements

theorem argumentFragments_shaped (arguments : List Expr)
    (h : argumentsMeet .inPlace arguments = true) :
    ∀ argument ∈ argumentFragments arguments, argument.Shaped scope := by
  match arguments with
  | [] => exact List.forall_mem_nil _
  | argument :: rest =>
    obtain ⟨hargument, hrest⟩ := Bool.and_eq_true_iff.1 h
    refine List.forall_mem_cons.2 ⟨?_, argumentFragments_shaped rest hrest⟩
    exact (argument.shaped hargument).builds
termination_by structural arguments

theorem optionalFragment_shaped (expr : Option Expr) (h : optionalMeets .inPlace expr = true) :
    ∀ part ∈ optionalFragment expr, part.Shaped scope := by
  match expr with
  | none => rintro part ⟨⟩
  | some expr =>
    rintro part ⟨⟩
    exact (expr.shaped h).builds
termination_by structural expr

theorem Member.shaped (member : Member) (h : member.meets .inPlace = true) :
    member.fragment.Shaped scope := by
  match member with
  | ⟨_, key, value, getter, setter, _, _⟩ =>
    obtain ⟨hkey, hrest⟩ := Bool.and_eq_true_iff.1 h
    obtain ⟨hvalue, haccessors⟩ := Bool.and_eq_true_iff.1 hrest
    obtain ⟨hgetter, hsetter⟩ := Bool.and_eq_true_iff.1 haccessors
    constructor
    · exact (key.shaped hkey).builds
    · exact memberValue_shaped value hvalue
    · exact accessorFragment_shaped getter hgetter
    · exact accessorFragment_shaped setter hsetter
termination_by structural member

theorem memberValue_shaped (value : Option Expr) (h : optionalMeets .inPlace value = true) :
    ∀ part ∈ memberValue value, part.Shaped scope := by
  match value with
  | none => rintro part ⟨⟩
  | some value =>
    have hvalue := (value.shaped h).builds
    cases value with
    | functionDef definition =>
      have hmeets : (Expr.functionDef definition).meets .inPlace = true := h
      have hdefinition := definition.shaped (Bool.and_eq_true_iff.1 hmeets).2
      exact forall_memberValue_function hdefinition hvalue
    | _ =>
      rintro part ⟨⟩
      exact hvalue
termination_by structural value

theorem accessorFragment_shaped (accessor : Option FunctionDef)
    (h : accessorMeets .inPlace accessor = true) :
    ∀ function ∈ accessorFragment accessor, function.Shaped scope := by
  match accessor with
  | none => rintro part ⟨⟩
  | some definition =>
    rintro part ⟨⟩
    exact definition.shaped h
termination_by structural accessor

theorem memberBuilds_shaped (members : List Member) (h : membersMeet .inPlace members = true) :
    ∀ build ∈ memberBuilds members, KeepsShape scope build := by
  match members with
  | [] => exact List.forall_mem_nil _
  | member :: rest =>
    obtain ⟨hmember, hrest⟩ := Bool.and_eq_true_iff.1 h
    refine List.forall_mem_cons.2 ⟨?_, memberBuilds_shaped rest hrest⟩
    exact Rule.shaped_member (member.shaped hmember)
termination_by structural members

theorem elementBuilds_shaped (members : List Member) (h : membersMeet .inPlace members = true) :
    ∀ element ∈ elementBuilds members, KeepsShape scope element.build := by
  match members with
  | [] => exact List.forall_mem_nil _
  | member :: rest =>
    obtain ⟨hmember, hrest⟩ := Bool.and_eq_true_iff.1 h
    refine List.forall_mem_cons.2 ⟨?_, elementBuilds_shaped rest hrest⟩
    exact Rule.shaped_member (member.shaped hmember)
termination_by structural members

theorem FunctionDef.shaped (definition : FunctionDef) (h : definition.meets .inPlace = true) :
    definition.fragment.Shaped scope := by
  match definition with
  | ⟨_, _, _, parameters, body, _, _, _, _⟩ =>
    have hbody : body.meets .inPlace = true := h
    constructor
    · exact (body.shaped hbody).keeps
    · exact body.defaults_shaped hbody
termination_by structural definition

theorem ClassDef.shaped (definition : ClassDef) (h : definition.meets .inPlace = true) :
    definition.fragment.Shaped scope := by
  match definition with
  | ⟨_, _, heritage, none, elements⟩ =>
    obtain ⟨hheritage, helements⟩ := Bool.and_eq_true_iff.1 h
    constructor
    · exact optionalFragment_shaped heritage hheritage
    · exact elementBuilds_shaped elements helements
  | ⟨range, name, heritage, some member, elements⟩ =>
    obtain ⟨hheritage, hmembers⟩ := Bool.and_eq_true_iff.1 h
    obtain ⟨hwritten, helements⟩ := Bool.and_eq_true_iff.1 hmembers
    have hrest := elementBuilds_shaped elements helements
    constructor
    · exact optionalFragment_shaped heritage hheritage
    · simp only [ClassDef.fragment]
      split
      · exact hrest
      · next himplicit =>
        -- a constructor that was written meets the demand like any other member
        have hmember : member.meets .inPlace = true :=
          (Bool.or_eq_true_iff.1 hwritten).resolve_left himplicit
        exact List.forall_mem_cons.2 ⟨Rule.shaped_member (member.shaped hmember), hrest⟩
termination_by structural definition

theorem Block.shaped (block : Block) (h : block.meets .inPlace = true) : block.Shaped scope := by
  match block with
  | ⟨range, kind, statements⟩ =>
    have hstatements := statementFragments_shaped statements h
    constructor
    · exact Rule.shaped_block range kind hstatements
    · rintro ⟨⟩
      exact Rule.shapes_bracedBlock range hstatements
termination_by structural block

theorem Block.defaults_shaped (block : Block) (h : block.meets .inPlace = true) :
    ∀ value ∈ block.defaults, value.2.Shaped scope := by
  match block with
  | ⟨_, .parameter, statements⟩ =>
    have hvalues := initialisers_shaped statements h
    intro value hvalue
    obtain ⟨found, hfound, heq⟩ := List.mem_filterMap.1 hvalue
    exact hvalues found (List.dropLast_subset _ hfound) value heq
  | ⟨_, .braced, _⟩ => exact List.forall_mem_nil _
  | ⟨_, .synthetic, _⟩ => exact List.forall_mem_nil _
termination_by structural block

theorem initialisers_shaped (statements : List Stmt)
    (h : statementsMeet .inPlace statements = true) :
    ∀ found ∈ initialisers statements, ∀ value ∈ found, value.2.Shaped scope := by
  match statements with
  | [] => exact List.forall_mem_nil _
  | statement :: rest =>
    obtain ⟨hstatement, hrest⟩ := Bool.and_eq_true_iff.1 h
    refine initialisers_cons_shaped scope ?_ (initialisers_shaped rest hrest)
    cases statement with
    | expression _ expr =>
      have hexpr := expr.shaped hstatement
      rintro _ _ ⟨⟩
      exact hexpr.default
    | _ => rintro _ _ ⟨⟩
termination_by structural statements

theorem statementFragments_shaped (statements : List Stmt)
    (h : statementsMeet .inPlace statements = true) :
    ∀ statement ∈ statementFragments statements, statement.Shaped scope := by
  match statements with
  | [] => exact List.forall_mem_nil _
  | statement :: rest =>
    obtain ⟨hstatement, hrest⟩ := Bool.and_eq_true_iff.1 h
    have hbuild := statement.shaped hstatement
    have hfragments := statementFragments_shaped rest hrest
    cases statement with
    | forLoop loop =>
      have hloop := loop.shaped hstatement
      refine List.forall_mem_cons.2 ⟨⟨hbuild, ?_⟩, hfragments⟩
      rintro found ⟨⟩
      exact hloop
    | _ =>
      refine List.forall_mem_cons.2 ⟨⟨hbuild, ?_⟩, hfragments⟩
      rintro found ⟨⟩
termination_by structural statements

theorem optionalBlock_shaped (block : Option Block) (h : blockMeets .inPlace block = true) :
    ∀ part ∈ optionalBlock block, part.Shaped scope ∧
      (block.all Demand.inPlace.guarded = true → Shapes scope part.build) := by
  match block with
  | none => rintro part ⟨⟩
  | some block =>
    rintro part ⟨⟩
    have hblock := block.shaped h
    exact ⟨hblock.keeps, fun hguarded => hblock.braced (eq_of_beq hguarded)⟩
termination_by structural block

theorem Stmt.shaped (statement : Stmt) (h : statement.meets .inPlace = true) :
    KeepsShape scope statement.recover := by
  match statement with
  | .binding definition => exact definition.shaped h
  | .expression _ expr => exact .ofShapes (Rule.shapes_expressionStatement (expr.shaped h).builds)
  | .block body => exact (body.shaped h).keeps
  | .empty range => exact .ofShapes (Rule.shapes_emptyStatement range)
  | .ifElse range test pass fail =>
    obtain ⟨htest, hblocks⟩ := Bool.and_eq_true_iff.1 h
    obtain ⟨hpass, hfail⟩ := Bool.and_eq_true_iff.1 hblocks
    refine .ofShapes (Rule.shapes_ifElse range (test.shaped htest).builds
      (pass.shaped hpass).keeps ?_)
    exact fun block hblock => (optionalBlock_shaped fail hfail block hblock).1
  | .forLoop loop =>
    refine .ofShapes (Rule.shapes_forLoop (loop.shaped h) ?_)
    rintro node ⟨⟩
  | .whileLoop range isDo test body =>
    obtain ⟨htest, hbody⟩ := Bool.and_eq_true_iff.1 h
    have ht := (test.shaped htest).builds
    have hb := (body.shaped hbody).keeps
    simp only [Stmt.recover]
    split
    · exact .ofShapes (Rule.shapes_doLoop range ht hb)
    · exact .ofShapes (Rule.shapes_whileLoop range ht hb)
  | .switch range subject cases =>
    obtain ⟨hsubject, hcases⟩ := Bool.and_eq_true_iff.1 h
    exact .ofShapes (Rule.shapes_switch range (subject.shaped hsubject).builds
      (caseBuilds_shaped cases hcases))
  | .tryCatch range body catches finalizer =>
    obtain ⟨hguarded, hparts⟩ := Bool.and_eq_true_iff.1 h
    obtain ⟨hbraces, hfinally⟩ := Bool.and_eq_true_iff.1 hguarded
    obtain ⟨hbody, hclauses⟩ := Bool.and_eq_true_iff.1 hparts
    obtain ⟨hcatches, hfinalizer⟩ := Bool.and_eq_true_iff.1 hclauses
    refine .ofShapes (Rule.shapes_tryCatch range ?_ (catchBuilds_shaped catches hcatches) ?_)
    · exact (body.shaped hbody).braced (eq_of_beq hbraces)
    · exact fun block hblock =>
        (optionalBlock_shaped finalizer hfinalizer block hblock).2 hfinally
  | .throwValue range value =>
    exact .ofShapes (Rule.shapes_throwStatement range (value.shaped h).builds)
  | .returnValue range value isGenerated =>
    exact Rule.shaped_returnStatement range isGenerated (optionalFragment_shaped value h)
  | .jump range kind label => exact .ofShapes (Rule.shapes_jump range kind label)
  | .labelled range label body =>
    exact .ofShapes (Rule.shapes_labelled range label (body.shaped h).keeps)
  | .withScope range subject body =>
    obtain ⟨hsubject, hbody⟩ := Bool.and_eq_true_iff.1 h
    exact .ofShapes (Rule.shapes_withScope range (subject.shaped hsubject).builds
      (body.shaped hbody).keeps)
termination_by structural statement

theorem Binding.shaped (binding : Binding) (h : binding.meets .inPlace = true) :
    KeepsShape scope binding.recover := by
  match binding with
  | ⟨range, name, none, kind, isFunctionDeclaration⟩ =>
    refine Rule.shaped_binding ?_
    rintro part ⟨⟩
  | ⟨range, name, some value, kind, isFunctionDeclaration⟩ =>
    have hbuilds : value.meets .inPlace = true →
        ∀ part ∈ some (value.fragmentOf value.recover), part.Shaped scope := by
      rintro hmeets part ⟨⟩
      exact (value.shaped hmeets).builds
    cases value with
    | functionDef definition =>
      obtain ⟨hplace, hdefinition⟩ := Bool.and_eq_true_iff.1 h
      by_cases hdeclares : definition.declares = true
      · have hfunction : declaresFunction name isFunctionDeclaration = true := by
          refine (Bool.or_eq_true_iff.1 hplace).resolve_right fun hoperand => ?_
          exact Bool.false_ne_true ((Bool.not_eq_eq_eq_not.1 hoperand).symm.trans hdeclares)
        exact Rule.shaped_functionBinding (definition.shaped hdefinition) rfl rfl
          (definition.declares_fragment.trans hdeclares) hfunction
      · refine Rule.shaped_binding (hbuilds (Bool.and_eq_true_iff.2 ⟨?_, hdefinition⟩))
        exact Bool.not_eq_eq_eq_not.2 (Bool.eq_false_iff.2 hdeclares)
    | classDef definition =>
      have hdefinition := definition.shaped h
      simp only [Binding.recover]
      split
      · exact .ofShapes (Rule.shapes_classDeclaration name hdefinition)
      · exact Rule.shaped_binding (hbuilds h)
    | _ => exact Rule.shaped_binding (hbuilds h)
termination_by structural binding

theorem ForLoop.shaped (loop : ForLoop) (h : loop.meets .inPlace = true) :
    loop.fragment.Shaped scope := by
  match loop with
  | ⟨_, _, init, test, update, body⟩ =>
    obtain ⟨hinit, hrest⟩ := Bool.and_eq_true_iff.1 h
    obtain ⟨htest, hrest⟩ := Bool.and_eq_true_iff.1 hrest
    obtain ⟨hupdate, hbody⟩ := Bool.and_eq_true_iff.1 hrest
    constructor
    · exact optionalFragment_shaped init hinit
    · exact optionalFragment_shaped test htest
    · exact optionalFragment_shaped update hupdate
    · exact (body.shaped hbody).keeps
termination_by structural loop

theorem caseBuilds_shaped (cases : List SwitchCase) (h : casesMeet .inPlace cases = true) :
    ∀ clause ∈ caseBuilds cases, KeepsShape scope clause.2 := by
  match cases with
  | [] => exact List.forall_mem_nil _
  | clause :: rest =>
    obtain ⟨hclause, hrest⟩ := Bool.and_eq_true_iff.1 h
    exact List.forall_mem_cons.2 ⟨clause.shaped hclause, caseBuilds_shaped rest hrest⟩
termination_by structural cases

theorem SwitchCase.shaped (clause : SwitchCase) (h : clause.meets .inPlace = true) :
    KeepsShape scope clause.recover := by
  match clause with
  | ⟨_, test, statements⟩ =>
    obtain ⟨htest, hstatements⟩ := Bool.and_eq_true_iff.1 h
    exact .ofShapes (Rule.shapes_switchCase (optionalFragment_shaped test htest)
      (statementFragments_shaped statements hstatements))
termination_by structural clause

theorem catchBuilds_shaped (catches : List CatchClause) (h : catchesMeet .inPlace catches = true) :
    ∀ build ∈ catchBuilds catches, Rule.AddsHandler scope build := by
  match catches with
  | [] => exact List.forall_mem_nil _
  | ⟨range, exception, body⟩ :: rest =>
    obtain ⟨hbody, hrest⟩ := Bool.and_eq_true_iff.1 h
    refine List.forall_mem_cons.2 ⟨?_, catchBuilds_shaped rest hrest⟩
    exact Rule.addsHandler_catchClause range exception (body.shaped hbody).keeps
termination_by structural catches

end

/-! ## Programs -/

theorem Program.shaped_recover (program : Program) (h : program.body.meets .inPlace = true) :
    KeepsShape scope program.recover := by
  refine .after (.note _) fun _ _ => (program.body.shaped scope h).keeps.andThen ?_
  split
  · exact Rule.shaped_moduleItems _
  · exact .pure

end Concretion
