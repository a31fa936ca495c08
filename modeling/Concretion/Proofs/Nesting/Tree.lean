import Concretion.Proofs.Nesting.Items
import Concretion.Recovery.Program

/-!
# Trees are recovered as nested trees

By induction on the abstract tree: each construct is recovered by a rule, and what a rule leaves is
nested if what the parts leave is. The demand on rest parameters is taken along to all parts.

- `Expr.Nests`: what the induction carries for an expression.
- `Expr.nests`, `Stmt.nests`, `Block.nests`: the recovery of whole constructs.
- `Program.nests_recover`: the recovery of a program.
-/

namespace Concretion

open Recover

variable (scope : Scope)

/-! ## Default values

The default value of a parameter lies three levels below the statement that sets it, and it is
recovered on its own. -/

/-- The first branch of a conditional leaves nested trees. -/
def Expr.BranchNests : Expr → Prop
  | .conditional _ _ value _ => StaysNested scope value.recover
  | _ => True

/-- What the expression may set as a default value leaves nested trees. -/
def Expr.DefaultNests : Expr → Prop
  | .binary _ _ _ right => right.BranchNests scope
  | _ => True

/-- An expression leaves nested trees, and so does the default value it may set. -/
structure Expr.Nests (expr : Expr) : Prop where
  builds : StaysNested scope expr.recover
  branch : expr.BranchNests scope
  default : expr.DefaultNests scope

theorem initialisers_cons_nest {statement : Stmt} {rest : List Stmt}
    (h : ∀ range expr, statement = .expression range expr → expr.DefaultNests scope)
    (hrest : ∀ found ∈ initialisers rest, ∀ value ∈ found, value.2.Nests scope) :
    ∀ found ∈ initialisers (statement :: rest), ∀ value ∈ found, value.2.Nests scope :=
  forall_initialisers_cons (fun _ _ _ _ _ _ _ _ hset => h _ _ hset) hrest

/-! ## The induction -/

mutual

theorem Expr.nests (expr : Expr) (h : expr.meets .written = true) : expr.Nests scope := by
  cases expr with
  | ident name => exact ⟨Rule.nests_ident name, trivial, trivial⟩
  | literal range value => exact ⟨Rule.nests_literal range value, trivial, trivial⟩
  | array range elements =>
    exact ⟨Rule.nests_array range (elementFragments_nest elements h), trivial, trivial⟩
  | unary range operator operand =>
    exact ⟨Rule.nests_unary range operator (operand.nests h).builds, trivial, trivial⟩
  | binary range operator left right =>
    obtain ⟨hleft, hright⟩ := Bool.and_eq_true_iff.1 h
    have hl := left.nests hleft
    have hr := right.nests hright
    exact ⟨Rule.nests_binary range operator hl.builds hr.builds, trivial, hr.branch⟩
  | conditional range test consequent alternate =>
    obtain ⟨htest, hbranches⟩ := Bool.and_eq_true_iff.1 h
    obtain ⟨hconsequent, halternate⟩ := Bool.and_eq_true_iff.1 hbranches
    have hc := (consequent.nests hconsequent).builds
    refine ⟨?_, hc, trivial⟩
    exact Rule.nests_conditional range (test.nests htest).builds hc
      (alternate.nests halternate).builds
  | call range callee arguments =>
    obtain ⟨hcallee, harguments⟩ := Bool.and_eq_true_iff.1 h
    refine ⟨?_, trivial, trivial⟩
    exact Rule.nests_call range (callee.nests hcallee).builds
      (argumentFragments_nest arguments harguments)
  | access range base property =>
    exact ⟨Rule.nests_access range property (base.nests h).builds, trivial, trivial⟩
  | index range base index =>
    obtain ⟨hbase, hindex⟩ := Bool.and_eq_true_iff.1 h
    refine ⟨?_, trivial, trivial⟩
    exact Rule.nests_index range (base.nests hbase).builds (index.nests hindex).builds
  | object range members =>
    exact ⟨Rule.nests_object range (memberBuilds_nest members h), trivial, trivial⟩
  | functionDef definition =>
    obtain ⟨-, hdefinition⟩ := Bool.and_eq_true_iff.1 h
    exact ⟨Rule.nests_functionExpression (definition.nests hdefinition), trivial, trivial⟩
  | classDef definition =>
    exact ⟨Rule.nests_classExpression (definition.nests h), trivial, trivial⟩
termination_by structural expr

theorem elementFragments_nest (elements : List (Option Expr))
    (h : elementsMeet .written elements = true) :
    ∀ element ∈ elementFragments elements, ∀ part ∈ element, part.Nests scope := by
  match elements with
  | [] => exact List.forall_mem_nil _
  | none :: rest =>
    refine List.forall_mem_cons.2 ⟨?_, elementFragments_nest rest h⟩
    rintro part ⟨⟩
  | some element :: rest =>
    obtain ⟨helement, hrest⟩ := Bool.and_eq_true_iff.1 h
    refine List.forall_mem_cons.2 ⟨?_, elementFragments_nest rest hrest⟩
    rintro part ⟨⟩
    exact (element.nests helement).builds
termination_by structural elements

theorem argumentFragments_nest (arguments : List Expr)
    (h : argumentsMeet .written arguments = true) :
    ∀ argument ∈ argumentFragments arguments, argument.Nests scope := by
  match arguments with
  | [] => exact List.forall_mem_nil _
  | argument :: rest =>
    obtain ⟨hargument, hrest⟩ := Bool.and_eq_true_iff.1 h
    refine List.forall_mem_cons.2 ⟨?_, argumentFragments_nest rest hrest⟩
    exact (argument.nests hargument).builds
termination_by structural arguments

theorem optionalFragment_nests (expr : Option Expr) (h : optionalMeets .written expr = true) :
    ∀ part ∈ optionalFragment expr, part.Nests scope := by
  match expr with
  | none => rintro part ⟨⟩
  | some expr =>
    rintro part ⟨⟩
    exact (expr.nests h).builds
termination_by structural expr

theorem Member.nests (member : Member) (h : member.meets .written = true) :
    member.fragment.Nests scope := by
  match member with
  | ⟨_, key, value, getter, setter, _, _⟩ =>
    obtain ⟨hkey, hrest⟩ := Bool.and_eq_true_iff.1 h
    obtain ⟨hvalue, haccessors⟩ := Bool.and_eq_true_iff.1 hrest
    obtain ⟨hgetter, hsetter⟩ := Bool.and_eq_true_iff.1 haccessors
    constructor
    · exact (key.nests hkey).builds
    · exact memberValue_nests value hvalue
    · exact accessorFragment_nests getter hgetter
    · exact accessorFragment_nests setter hsetter
termination_by structural member

theorem memberValue_nests (value : Option Expr) (h : optionalMeets .written value = true) :
    ∀ part ∈ memberValue value, part.Nests scope := by
  match value with
  | none => rintro part ⟨⟩
  | some value =>
    have hvalue := (value.nests h).builds
    cases value with
    | functionDef definition =>
      have hmeets : (Expr.functionDef definition).meets .written = true := h
      have hdefinition := definition.nests (Bool.and_eq_true_iff.1 hmeets).2
      exact forall_memberValue_function hdefinition hvalue
    | _ =>
      rintro part ⟨⟩
      exact hvalue
termination_by structural value

theorem accessorFragment_nests (accessor : Option FunctionDef)
    (h : accessorMeets .written accessor = true) :
    ∀ function ∈ accessorFragment accessor, function.Nests scope := by
  match accessor with
  | none => rintro part ⟨⟩
  | some definition =>
    rintro part ⟨⟩
    exact definition.nests h
termination_by structural accessor

theorem memberBuilds_nest (members : List Member) (h : membersMeet .written members = true) :
    ∀ build ∈ memberBuilds members, StaysNested scope build := by
  match members with
  | [] => exact List.forall_mem_nil _
  | member :: rest =>
    obtain ⟨hmember, hrest⟩ := Bool.and_eq_true_iff.1 h
    refine List.forall_mem_cons.2 ⟨?_, memberBuilds_nest rest hrest⟩
    exact Rule.nests_member (member.nests hmember)
termination_by structural members

theorem elementBuilds_nest (members : List Member) (h : membersMeet .written members = true) :
    ∀ element ∈ elementBuilds members, StaysNested scope element.build := by
  match members with
  | [] => exact List.forall_mem_nil _
  | member :: rest =>
    obtain ⟨hmember, hrest⟩ := Bool.and_eq_true_iff.1 h
    refine List.forall_mem_cons.2 ⟨?_, elementBuilds_nest rest hrest⟩
    exact Rule.nests_member (member.nests hmember)
termination_by structural members

theorem FunctionDef.nests (definition : FunctionDef) (h : definition.meets .written = true) :
    definition.fragment.Nests scope := by
  match definition with
  | ⟨_, _, _, parameters, body, _, _, _, _⟩ =>
    obtain ⟨hparameters, hbody⟩ := Bool.and_eq_true_iff.1 h
    constructor
    · exact body.nests hbody
    · exact body.defaults_nest hbody
    · exact List.all_eq_true.1 hparameters
termination_by structural definition

theorem ClassDef.nests (definition : ClassDef) (h : definition.meets .written = true) :
    definition.fragment.Nests scope := by
  match definition with
  | ⟨_, _, heritage, none, elements⟩ =>
    obtain ⟨hheritage, helements⟩ := Bool.and_eq_true_iff.1 h
    constructor
    · exact optionalFragment_nests heritage hheritage
    · exact elementBuilds_nest elements helements
  | ⟨range, name, heritage, some member, elements⟩ =>
    obtain ⟨hheritage, hmembers⟩ := Bool.and_eq_true_iff.1 h
    obtain ⟨hwritten, helements⟩ := Bool.and_eq_true_iff.1 hmembers
    have hrest := elementBuilds_nest elements helements
    constructor
    · exact optionalFragment_nests heritage hheritage
    · simp only [ClassDef.fragment]
      split
      · exact hrest
      · next himplicit =>
        -- a constructor that was written meets the demand like any other member
        have hmember : member.meets .written = true :=
          (Bool.or_eq_true_iff.1 hwritten).resolve_left himplicit
        exact List.forall_mem_cons.2 ⟨Rule.nests_member (member.nests hmember), hrest⟩
termination_by structural definition

theorem Block.nests (block : Block) (h : block.meets .written = true) :
    StaysNested scope block.recover := by
  match block with
  | ⟨range, kind, statements⟩ =>
    exact Rule.nests_block range kind (statementFragments_nest statements h)
termination_by structural block

theorem Block.defaults_nest (block : Block) (h : block.meets .written = true) :
    ∀ value ∈ block.defaults, value.2.Nests scope := by
  match block with
  | ⟨_, .parameter, statements⟩ =>
    have hnests := initialisers_nest statements h
    intro value hvalue
    obtain ⟨found, hfound, heq⟩ := List.mem_filterMap.1 hvalue
    exact hnests found (List.dropLast_subset _ hfound) value heq
  | ⟨_, .braced, _⟩ => exact List.forall_mem_nil _
  | ⟨_, .synthetic, _⟩ => exact List.forall_mem_nil _
termination_by structural block

theorem initialisers_nest (statements : List Stmt) (h : statementsMeet .written statements = true) :
    ∀ found ∈ initialisers statements, ∀ value ∈ found, value.2.Nests scope := by
  match statements with
  | [] => exact List.forall_mem_nil _
  | statement :: rest =>
    obtain ⟨hstatement, hrest⟩ := Bool.and_eq_true_iff.1 h
    refine initialisers_cons_nest scope ?_ (initialisers_nest rest hrest)
    cases statement with
    | expression _ expr =>
      have hexpr := expr.nests hstatement
      rintro _ _ ⟨⟩
      exact hexpr.default
    | _ => rintro _ _ ⟨⟩
termination_by structural statements

theorem statementFragments_nest (statements : List Stmt)
    (h : statementsMeet .written statements = true) :
    ∀ statement ∈ statementFragments statements, statement.Nests scope := by
  match statements with
  | [] => exact List.forall_mem_nil _
  | statement :: rest =>
    obtain ⟨hstatement, hrest⟩ := Bool.and_eq_true_iff.1 h
    have hbuild := statement.nests hstatement
    have hfragments := statementFragments_nest rest hrest
    cases statement with
    | forLoop loop =>
      have hloop := loop.nests hstatement
      refine List.forall_mem_cons.2 ⟨⟨hbuild, ?_⟩, hfragments⟩
      rintro found ⟨⟩
      exact hloop
    | _ =>
      refine List.forall_mem_cons.2 ⟨⟨hbuild, ?_⟩, hfragments⟩
      rintro found ⟨⟩
termination_by structural statements

theorem optionalBlock_nests (block : Option Block) (h : blockMeets .written block = true) :
    ∀ part ∈ optionalBlock block, part.Nests scope := by
  match block with
  | none => rintro part ⟨⟩
  | some block =>
    rintro part ⟨⟩
    exact block.nests h
termination_by structural block

theorem Stmt.nests (statement : Stmt) (h : statement.meets .written = true) :
    StaysNested scope statement.recover := by
  match statement with
  | .binding definition => exact definition.nests h
  | .expression _ expr => exact Rule.nests_expressionStatement (expr.nests h).builds
  | .block body => exact body.nests h
  | .empty range => exact Rule.nests_emptyStatement range
  | .ifElse range test pass fail =>
    obtain ⟨htest, hblocks⟩ := Bool.and_eq_true_iff.1 h
    obtain ⟨hpass, hfail⟩ := Bool.and_eq_true_iff.1 hblocks
    exact Rule.nests_ifElse range (test.nests htest).builds (pass.nests hpass)
      (optionalBlock_nests fail hfail)
  | .forLoop loop =>
    refine Rule.nests_forLoop (loop.nests h) ?_
    rintro node ⟨⟩
  | .whileLoop range isDo test body =>
    obtain ⟨htest, hbody⟩ := Bool.and_eq_true_iff.1 h
    have ht := (test.nests htest).builds
    have hb := body.nests hbody
    simp only [Stmt.recover]
    split
    · exact Rule.nests_doLoop range ht hb
    · exact Rule.nests_whileLoop range ht hb
  | .switch range subject cases =>
    obtain ⟨hsubject, hcases⟩ := Bool.and_eq_true_iff.1 h
    exact Rule.nests_switch range (subject.nests hsubject).builds (caseBuilds_nest cases hcases)
  | .tryCatch range body catches finalizer =>
    obtain ⟨-, hparts⟩ := Bool.and_eq_true_iff.1 h
    obtain ⟨hbody, hclauses⟩ := Bool.and_eq_true_iff.1 hparts
    obtain ⟨hcatches, hfinalizer⟩ := Bool.and_eq_true_iff.1 hclauses
    exact Rule.nests_tryCatch range (body.nests hbody) (catchBuilds_nest catches hcatches)
      (optionalBlock_nests finalizer hfinalizer)
  | .throwValue range value => exact Rule.nests_throwStatement range (value.nests h).builds
  | .returnValue range value isGenerated =>
    exact Rule.nests_returnStatement range isGenerated (optionalFragment_nests value h)
  | .jump range kind label => exact Rule.nests_jump range kind label
  | .labelled range label body => exact Rule.nests_labelled range label (body.nests h)
  | .withScope range subject body =>
    obtain ⟨hsubject, hbody⟩ := Bool.and_eq_true_iff.1 h
    exact Rule.nests_withScope range (subject.nests hsubject).builds (body.nests hbody)
termination_by structural statement

theorem Binding.nests (binding : Binding) (h : binding.meets .written = true) :
    StaysNested scope binding.recover := by
  match binding with
  | ⟨range, name, none, kind, isFunctionDeclaration⟩ =>
    refine Rule.nests_binding ?_
    rintro part ⟨⟩
  | ⟨range, name, some value, kind, isFunctionDeclaration⟩ =>
    have hmeets : value.meets .written = true := by
      cases value with
      | functionDef definition =>
        obtain ⟨-, hdefinition⟩ := Bool.and_eq_true_iff.1 h
        exact hdefinition
      | _ => exact h
    have hvalue := (value.nests hmeets).builds
    have hinit : ∀ part ∈ some (value.fragmentOf value.recover), part.Nests scope := by
      rintro part ⟨⟩
      exact hvalue
    cases value with
    | classDef definition =>
      have hdefinition := definition.nests hmeets
      simp only [Binding.recover]
      split
      · exact Rule.nests_classDeclaration name hdefinition
      · exact Rule.nests_binding hinit
    | _ => exact Rule.nests_binding hinit
termination_by structural binding

theorem ForLoop.nests (loop : ForLoop) (h : loop.meets .written = true) :
    loop.fragment.Nests scope := by
  match loop with
  | ⟨_, _, init, test, update, body⟩ =>
    obtain ⟨hinit, hrest⟩ := Bool.and_eq_true_iff.1 h
    obtain ⟨htest, hrest⟩ := Bool.and_eq_true_iff.1 hrest
    obtain ⟨hupdate, hbody⟩ := Bool.and_eq_true_iff.1 hrest
    constructor
    · exact optionalFragment_nests init hinit
    · exact optionalFragment_nests test htest
    · exact optionalFragment_nests update hupdate
    · exact body.nests hbody
termination_by structural loop

theorem caseBuilds_nest (cases : List SwitchCase) (h : casesMeet .written cases = true) :
    ∀ clause ∈ caseBuilds cases, StaysNested scope clause.2 := by
  match cases with
  | [] => exact List.forall_mem_nil _
  | clause :: rest =>
    obtain ⟨hclause, hrest⟩ := Bool.and_eq_true_iff.1 h
    exact List.forall_mem_cons.2 ⟨clause.nests hclause, caseBuilds_nest rest hrest⟩
termination_by structural cases

theorem SwitchCase.nests (clause : SwitchCase) (h : clause.meets .written = true) :
    StaysNested scope clause.recover := by
  match clause with
  | ⟨_, test, statements⟩ =>
    obtain ⟨htest, hstatements⟩ := Bool.and_eq_true_iff.1 h
    exact Rule.nests_switchCase (optionalFragment_nests test htest)
      (statementFragments_nest statements hstatements)
termination_by structural clause

theorem catchBuilds_nest (catches : List CatchClause) (h : catchesMeet .written catches = true) :
    ∀ build ∈ catchBuilds catches, StaysNested scope build := by
  match catches with
  | [] => exact List.forall_mem_nil _
  | ⟨range, exception, body⟩ :: rest =>
    obtain ⟨hbody, hrest⟩ := Bool.and_eq_true_iff.1 h
    refine List.forall_mem_cons.2 ⟨?_, catchBuilds_nest rest hrest⟩
    exact Rule.nests_catchClause range exception (body.nests hbody)
termination_by structural catches

end

/-! ## Programs -/

theorem Program.nests_recover (program : Program) (h : program.body.meets .written = true)
    (hinfo : ∀ info ∈ program.info, ∀ entry ∈ info.imports, entry.isUnquoted = true) :
    StaysNested scope program.recover := by
  refine (Nests.note _).andThen ((program.body.nests scope h).andThen ?_)
  split
  · next info hsome => exact Rule.nests_moduleItems (hinfo info hsome)
  · exact .pure trivial

end Concretion
