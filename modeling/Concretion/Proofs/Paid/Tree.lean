import Concretion.Proofs.Declared
import Concretion.Proofs.Paid.Rules
import Concretion.Recovery.Program

/-!
# Paying for the recovery of trees

The recovery of every abstract tree can be paid for, provided that the tariff does not take names
for hidden that are exported. The proof is by induction on the tree.

- `Expr.Paid`: what the induction carries for an expression.
- `Expr.paid`, `Stmt.paid`, `Block.paid`: the recovery of whole constructs.
-/

namespace Concretion

open Recover

variable {scope : Scope} (tariff : Tariff scope.source)

variable {tariff}

/-- Two lists of names are hidden if both are. -/
theorem Tariff.hides_append {a b : List String} :
    tariff.Hides (a ++ b) ↔ tariff.Hides a ∧ tariff.Hides b :=
  List.forall_mem_append

/-- A list of names is hidden if its first name and the others are. -/
theorem Tariff.hides_cons {name : String} {rest : List String} :
    tariff.Hides (name :: rest) ↔ tariff.HidesName name ∧ tariff.Hides rest :=
  List.forall_mem_cons

variable (tariff)

/-! ## Default values -/

/-- The recovery of the first branch of a conditional can be paid for. -/
def Expr.BranchPaid : Expr → Prop
  | .conditional _ _ value _ => Pays tariff .anywhere 0 value.recover
  | _ => True

/-- The recovery of what the expression may set as a default value can be paid for. -/
def Expr.DefaultPaid : Expr → Prop
  | .binary _ _ _ right => right.BranchPaid tariff
  | _ => True

/-- The recovery of an expression can be paid for, and so can that of the default value it may
set. -/
structure Expr.Paid (expr : Expr) : Prop where
  builds : Pays tariff .anywhere 0 expr.recover
  branch : expr.BranchPaid tariff
  default : expr.DefaultPaid tariff

variable {tariff}

/-- Only an expression that sets a default value adds one to the list. -/
theorem initialisers_cons_paid {statement : Stmt} {rest : List Stmt}
    (h : ∀ range expr, statement = .expression range expr → expr.DefaultPaid tariff)
    (hrest : ∀ found ∈ initialisers rest, ∀ value ∈ found, value.2.Paid tariff) :
    ∀ found ∈ initialisers (statement :: rest), ∀ value ∈ found, value.2.Paid tariff :=
  forall_initialisers_cons (fun _ _ _ _ _ _ _ _ hset => h _ _ hset) hrest

/-- The name of a function matters only if the function declares it. -/
theorem FunctionDef.exportable {place : Place} (definition : FunctionDef)
    (h : tariff.Hides (Expr.functionDef definition).declared) :
    (definition.fragment.isDeclared && !definition.fragment.isAnonymous &&
      !definition.fragment.isMethod) = true →
      Rule.Exportable tariff place definition.fragment.name.name := by
  obtain ⟨range, name, kind, parameters, body, isAnonymous, isMethod, isDeclared, super⟩ :=
    definition
  intro hdeclares
  have hdeclares : (isDeclared && !isAnonymous && !isMethod) = true := hdeclares
  refine Rule.exportable_of_hides (h name.name ?_)
  simp [Expr.declared, FunctionDef.declares, hdeclares]

/-- A binding is exported under its name, so it is enough that this name is hidden. -/
theorem paid_binding_of_hides {place : Place} {binding : BindingFragment}
    (h : binding.Paid tariff) (hname : tariff.HidesName binding.name.name) :
    Pays tariff place 0 (Rule.binding binding) := by
  refine Rule.paid_binding (fun heq => ?_)
    (fun _ _ => Rule.paid_valueAndName (Fragment.paid_buildOptional h))
    fun _ _ => Rule.paid_variableBinding h (Rule.exportable_of_hides hname)
  rcases hname.plain with hfree | hplain
  · exact Rule.paid_defaultExport h hfree
  · exact absurd heq hplain

/-- Where the name made up for default exports counts as hidden, export statements are free. -/
theorem exports_default_of_hides {place : Place} {name : String} (hname : tariff.HidesName name)
    (heq : name = defaultBindingName) : Rule.Exports tariff place ⟨true, true⟩ 0 := by
  rcases hname.plain with hfree | hplain
  · have hpriced : Rule.Exports tariff place ⟨true, true⟩ (tariff.status ⟨true, true⟩) :=
      Rule.exports_priced _
    rwa [show tariff.status ⟨true, true⟩ = 0 from hfree] at hpriced
  · exact absurd heq hplain

/-! ## The induction -/

mutual

/-- By induction on the expression, with the rule of each construct. -/
theorem Expr.paid (expr : Expr) (h : tariff.Hides expr.declared) : expr.Paid tariff :=
  match expr with
  | .ident name => ⟨Rule.paid_ident name, trivial, trivial⟩
  | .literal range value => ⟨Rule.paid_literal range value, trivial, trivial⟩
  | .array range elements =>
    ⟨Rule.paid_array range (elementFragments_paid elements h), trivial, trivial⟩
  | .unary range operator operand =>
    ⟨Rule.paid_unary range operator (operand.paid h).builds, trivial, trivial⟩
  | .binary range operator left right =>
    have ⟨hleft, hright⟩ := Tariff.hides_append.1 h
    ⟨Rule.paid_binary range operator (left.paid hleft).builds (right.paid hright).builds, trivial,
      (right.paid hright).branch⟩
  | .conditional range test consequent alternate =>
    have ⟨htest, h⟩ := Tariff.hides_append.1 h
    have ⟨hconsequent, halternate⟩ := Tariff.hides_append.1 h
    ⟨Rule.paid_conditional range (test.paid htest).builds (consequent.paid hconsequent).builds
      (alternate.paid halternate).builds, (consequent.paid hconsequent).builds, trivial⟩
  | .call range callee arguments =>
    have ⟨hcallee, harguments⟩ := Tariff.hides_append.1 h
    ⟨Rule.paid_call range (callee.paid hcallee).builds
      (argumentFragments_paid arguments harguments), trivial, trivial⟩
  | .access range base property =>
    ⟨Rule.paid_access range property (base.paid h).builds, trivial, trivial⟩
  | .index range base index =>
    have ⟨hbase, hindex⟩ := Tariff.hides_append.1 h
    ⟨Rule.paid_index range (base.paid hbase).builds (index.paid hindex).builds, trivial, trivial⟩
  | .object range members =>
    ⟨Rule.paid_object range (memberBuilds_paid members h), trivial, trivial⟩
  | .functionDef definition =>
    ⟨Rule.paid_functionExpression (definition.paid (Tariff.hides_append.1 h).2)
      (definition.exportable h), trivial, trivial⟩
  | .classDef definition => ⟨Rule.paid_classExpression (definition.paid h), trivial, trivial⟩
termination_by structural expr

/-- Holes cost nothing. -/
theorem elementFragments_paid (elements : List (Option Expr))
    (h : tariff.Hides (declaredElements elements)) :
    ∀ element ∈ elementFragments elements, ∀ part ∈ element, part.Paid tariff :=
  match elements with
  | [] => List.forall_mem_nil _
  | none :: rest =>
    List.forall_mem_cons.2 ⟨fun _ hnone => (by cases hnone), elementFragments_paid rest h⟩
  | some element :: rest =>
    have ⟨helement, hrest⟩ := Tariff.hides_append.1 h
    List.forall_mem_cons.2 ⟨fun _ hpart => Option.some.inj hpart ▸ (element.paid helement).builds,
      elementFragments_paid rest hrest⟩
termination_by structural elements

/-- Each argument declares some of the names that the call does. -/
theorem argumentFragments_paid (arguments : List Expr)
    (h : tariff.Hides (declaredArguments arguments)) :
    ∀ argument ∈ argumentFragments arguments, argument.Paid tariff :=
  match arguments with
  | [] => List.forall_mem_nil _
  | argument :: rest =>
    have ⟨hargument, hrest⟩ := Tariff.hides_append.1 h
    List.forall_mem_cons.2 ⟨(argument.paid hargument).builds, argumentFragments_paid rest hrest⟩
termination_by structural arguments

/-- What is left out costs nothing. -/
theorem optionalFragment_paid (expr : Option Expr) (h : tariff.Hides (declaredOptional expr)) :
    ∀ part ∈ optionalFragment expr, part.Paid tariff :=
  match expr with
  | none => fun _ hnone => by cases hnone
  | some expr => fun _ hpart => Option.some.inj hpart ▸ (expr.paid h).builds
termination_by structural expr

/-- Key, value and accessors declare the names of the member. -/
theorem Member.paid (member : Member) (h : tariff.Hides member.declared) :
    member.fragment.Paid tariff :=
  match member with
  | ⟨_, key, value, getter, setter, _, _⟩ =>
    have ⟨hkey, h⟩ := Tariff.hides_append.1 h
    have ⟨hvalue, h⟩ := Tariff.hides_append.1 h
    have ⟨hgetter, hsetter⟩ := Tariff.hides_append.1 h
    { key := (key.paid hkey).builds
      value := memberValue_paid value hvalue
      getter := accessorFragment_paid getter hgetter
      setter := accessorFragment_paid setter hsetter }
termination_by structural member

/-- A value is paid for as a method or as another expression. -/
theorem memberValue_paid (value : Option Expr) (h : tariff.Hides (declaredOptional value)) :
    ∀ part ∈ memberValue value, part.Paid tariff :=
  match value with
  | none => fun _ hnone => by cases hnone
  | some value => by
    have hvalue := (value.paid h).builds
    cases value with
    | functionDef definition =>
      have hdefinition := definition.paid (Tariff.hides_append.1 h).2
      exact forall_memberValue_function hdefinition hvalue
    | _ =>
      intro part hpart
      cases hpart
      exact hvalue
termination_by structural value

/-- An accessor that is missing costs nothing. -/
theorem accessorFragment_paid (accessor : Option FunctionDef)
    (h : tariff.Hides (declaredAccessor accessor)) :
    ∀ function ∈ accessorFragment accessor, function.Paid tariff :=
  match accessor with
  | none => fun _ hnone => by cases hnone
  | some definition => fun _ hpart => Option.some.inj hpart ▸ definition.paid h
termination_by structural accessor

/-- Each member declares some of the names that the object does. -/
theorem memberBuilds_paid (members : List Member) (h : tariff.Hides (declaredMembers members)) :
    ∀ build ∈ memberBuilds members, Pays tariff .anywhere 0 build :=
  match members with
  | [] => List.forall_mem_nil _
  | member :: rest =>
    have ⟨hmember, hrest⟩ := Tariff.hides_append.1 h
    List.forall_mem_cons.2
      ⟨Rule.paid_member (member.paid hmember), memberBuilds_paid rest hrest⟩
termination_by structural members

/-- Each element declares some of the names that the class does. -/
theorem elementBuilds_paid (members : List Member) (h : tariff.Hides (declaredMembers members)) :
    ∀ element ∈ elementBuilds members, Pays tariff .anywhere 0 element.build :=
  match members with
  | [] => List.forall_mem_nil _
  | member :: rest =>
    have ⟨hmember, hrest⟩ := Tariff.hides_append.1 h
    List.forall_mem_cons.2
      ⟨Rule.paid_member (member.paid hmember), elementBuilds_paid rest hrest⟩
termination_by structural members

/-- Names that are declared inside of a function count, its own name does not. -/
theorem FunctionDef.paid (definition : FunctionDef) (h : tariff.Hides definition.inner) :
    definition.fragment.Paid tariff :=
  match definition with
  | ⟨_, _, _, _, body, _, _, _, _⟩ => { body := body.paid h, defaults := body.defaults_paid h }
termination_by structural definition

/-- The default constructor may be left out, the other elements are paid for. -/
theorem ClassDef.paid (definition : ClassDef) (h : tariff.Hides definition.declared) :
    definition.fragment.Paid tariff :=
  match definition with
  | ⟨_, _, heritage, none, elements⟩ =>
    have ⟨hheritage, h⟩ := Tariff.hides_append.1 h
    { heritage := optionalFragment_paid heritage hheritage
      elements := elementBuilds_paid elements (Tariff.hides_append.1 h).2 }
  | ⟨range, name, heritage, some member, elements⟩ =>
    have ⟨hheritage, h⟩ := Tariff.hides_append.1 h
    have ⟨hconstructor, helements⟩ := Tariff.hides_append.1 h
    { heritage := optionalFragment_paid heritage hheritage
      elements := by
        have hmember : Pays tariff .anywhere 0 (Rule.member member.fragment) :=
          Rule.paid_member (member.paid hconstructor)
        have helements := elementBuilds_paid elements helements
        simp only [ClassDef.fragment]
        split
        · exact helements
        · exact List.forall_mem_cons.2 ⟨hmember, helements⟩ }
termination_by structural definition

/-- Each statement declares some of the names that the block does. -/
theorem Block.paid (block : Block) (h : tariff.Hides block.declared) :
    Pays tariff .anywhere 0 block.recover :=
  match block with
  | ⟨range, kind, statements⟩ =>
    Rule.paid_block range kind (statementFragments_paid statements h)
termination_by structural block

/-- Default values are set by statements of the block. -/
theorem Block.defaults_paid (block : Block) (h : tariff.Hides block.declared) :
    ∀ value ∈ block.defaults, value.2.Paid tariff :=
  match block with
  | ⟨_, .parameter, statements⟩ => fun value hvalue => by
    have hpaid := initialisers_paid statements h
    obtain ⟨found, hfound, heq⟩ := List.mem_filterMap.1 hvalue
    exact hpaid found (List.dropLast_subset _ hfound) value heq
  | ⟨_, .braced, _⟩ => List.forall_mem_nil _
  | ⟨_, .synthetic, _⟩ => List.forall_mem_nil _
termination_by structural block

/-- What sets a default value is an expression statement. -/
theorem initialisers_paid (statements : List Stmt)
    (h : tariff.Hides (declaredStatements statements)) :
    ∀ found ∈ initialisers statements, ∀ value ∈ found, value.2.Paid tariff :=
  match statements with
  | [] => List.forall_mem_nil _
  | statement :: rest => by
    have ⟨hstatement, hrest⟩ := Tariff.hides_append.1 h
    have hrest := initialisers_paid rest hrest
    cases statement with
    | expression _ expr =>
      have hexpr := expr.paid hstatement
      exact initialisers_cons_paid (fun _ _ heq => by cases heq; exact hexpr.default) hrest
    | _ => exact initialisers_cons_paid (fun _ _ heq => by cases heq) hrest
termination_by structural statements

/-- The header of a loop can be paid for on its own, as a declaration may be put back into it. -/
theorem statementFragments_paid (statements : List Stmt)
    (h : tariff.Hides (declaredStatements statements)) :
    ∀ statement ∈ statementFragments statements, statement.Paid tariff :=
  match statements with
  | [] => List.forall_mem_nil _
  | statement :: rest => by
    have ⟨hstatement, hrest⟩ := Tariff.hides_append.1 h
    have hrest := statementFragments_paid rest hrest
    have hbuild := statement.paid hstatement
    cases statement with
    | forLoop loop =>
      have hloop := loop.paid hstatement
      refine List.forall_mem_cons.2 ⟨⟨hbuild, fun found hfound => ?_⟩, hrest⟩
      cases hfound
      exact hloop
    | _ => exact List.forall_mem_cons.2 ⟨⟨hbuild, fun _ hnone => by cases hnone⟩, hrest⟩
termination_by structural statements

/-- A branch that is left out costs nothing. -/
theorem optionalBlock_paid (block : Option Block) (h : tariff.Hides (declaredBlock block)) :
    ∀ part ∈ optionalBlock block, part.Paid tariff :=
  match block with
  | none => fun _ hnone => by cases hnone
  | some block => fun _ hpart => Option.some.inj hpart ▸ block.paid h
termination_by structural block

/-- By cases of the statement, with the rule of each. -/
theorem Stmt.paid (statement : Stmt) (h : tariff.Hides statement.declared) :
    Pays tariff .anywhere 0 statement.recover :=
  match statement with
  | .binding definition => definition.paid h
  | .expression _ expr => Rule.paid_expressionStatement (expr.paid h).builds
  | .block body => body.paid h
  | .empty range => Rule.paid_emptyStatement range
  | .ifElse range test pass fail =>
    have ⟨htest, h⟩ := Tariff.hides_append.1 h
    have ⟨hpass, hfail⟩ := Tariff.hides_append.1 h
    Rule.paid_ifElse range (test.paid htest).builds (pass.paid hpass)
      (optionalBlock_paid fail hfail)
  | .forLoop loop => Rule.paid_forLoop none (loop.paid h)
  | .whileLoop range isDo test body => by
    have ⟨htest, hbody⟩ := Tariff.hides_append.1 h
    have htest := (test.paid htest).builds
    have hbody := body.paid hbody
    simp only [Stmt.recover]
    split
    · exact Rule.paid_doLoop range htest hbody
    · exact Rule.paid_whileLoop range htest hbody
  | .switch range subject cases =>
    have ⟨hsubject, hcases⟩ := Tariff.hides_append.1 h
    Rule.paid_switch range (subject.paid hsubject).builds (caseBuilds_paid cases hcases)
  | .tryCatch range body catches finalizer =>
    have ⟨hbody, h⟩ := Tariff.hides_append.1 h
    have ⟨hcatches, hfinalizer⟩ := Tariff.hides_append.1 h
    Rule.paid_tryCatch range (body.paid hbody) (catchBuilds_paid catches hcatches)
      (optionalBlock_paid finalizer hfinalizer)
  | .throwValue range value => Rule.paid_throwStatement range (value.paid h).builds
  | .returnValue range value isGenerated =>
    Rule.paid_returnStatement range isGenerated (optionalFragment_paid value h)
  | .jump range kind label => Rule.paid_jump range kind label
  | .labelled range label body => Rule.paid_labelled range label (body.paid h)
  | .withScope range subject body =>
    have ⟨hsubject, hbody⟩ := Tariff.hides_append.1 h
    Rule.paid_withScope range (subject.paid hsubject).builds (body.paid hbody)
termination_by structural statement

/-- The name of a binding is declared by it, and so are those of its initial value. -/
theorem Binding.paid (binding : Binding) (h : tariff.Hides binding.declared) :
    Pays tariff .anywhere 0 binding.recover :=
  match binding with
  | ⟨range, name, none, kind, isFunctionDeclaration⟩ =>
    have hinit : BindingFragment.Paid tariff ⟨range, name, none, kind, isFunctionDeclaration⟩ :=
      fun _ hnone => by cases hnone
    paid_binding_of_hides hinit (Tariff.hides_cons.1 h).1
  | ⟨range, name, some value, kind, isFunctionDeclaration⟩ => by
    have ⟨hname, hinner⟩ := Tariff.hides_cons.1 h
    have hvalue := (value.paid hinner).builds
    have hbinding : Pays tariff .anywhere 0 (Rule.binding
        ⟨range, name, some (value.fragmentOf value.recover), kind, isFunctionDeclaration⟩) :=
      paid_binding_of_hides (fun part hpart => Option.some.inj hpart ▸ hvalue) hname
    cases value with
    | classDef definition =>
      have hdefinition := definition.paid hinner
      simp only [Binding.recover]
      split
      · exact Rule.paid_classDeclaration name hdefinition (Rule.exportable_of_hides hname)
          (exports_default_of_hides hname)
      · exact hbinding
    | _ => exact hbinding
termination_by structural binding

/-- The clauses of the header and the body declare the names of the loop. -/
theorem ForLoop.paid (loop : ForLoop) (h : tariff.Hides loop.declared) :
    loop.fragment.Paid tariff :=
  match loop with
  | ⟨_, _, init, test, update, body⟩ =>
    have ⟨hinit, h⟩ := Tariff.hides_append.1 h
    have ⟨htest, h⟩ := Tariff.hides_append.1 h
    have ⟨hupdate, hbody⟩ := Tariff.hides_append.1 h
    { init := optionalFragment_paid init hinit
      test := optionalFragment_paid test htest
      update := optionalFragment_paid update hupdate
      body := body.paid hbody }
termination_by structural loop

/-- Each clause declares some of the names that the switch does. -/
theorem caseBuilds_paid (cases : List SwitchCase) (h : tariff.Hides (declaredCases cases)) :
    ∀ clause ∈ caseBuilds cases, Pays tariff .anywhere 0 clause.2 :=
  match cases with
  | [] => List.forall_mem_nil _
  | clause :: rest =>
    have ⟨hclause, hrest⟩ := Tariff.hides_append.1 h
    List.forall_mem_cons.2 ⟨clause.paid hclause, caseBuilds_paid rest hrest⟩
termination_by structural cases

/-- A clause declares the names of its test and of its statements. -/
theorem SwitchCase.paid (clause : SwitchCase) (h : tariff.Hides clause.declared) :
    Pays tariff .anywhere 0 clause.recover :=
  match clause with
  | ⟨_, test, statements⟩ =>
    have ⟨htest, hstatements⟩ := Tariff.hides_append.1 h
    Rule.paid_switchCase (optionalFragment_paid test htest)
      (statementFragments_paid statements hstatements)
termination_by structural clause

/-- Each handler declares some of the names that the list does. -/
theorem catchBuilds_paid (catches : List CatchClause) (h : tariff.Hides (declaredCatches catches)) :
    ∀ build ∈ catchBuilds catches, Pays tariff .anywhere 0 build :=
  match catches with
  | [] => List.forall_mem_nil _
  | ⟨range, exception, body⟩ :: rest =>
    have ⟨hbody, hrest⟩ := Tariff.hides_append.1 h
    List.forall_mem_cons.2
      ⟨Rule.paid_catchClause range exception (body.paid hbody), catchBuilds_paid rest hrest⟩
termination_by structural catches

end

/-! ## Programs -/

/-- The statements known from the metadata go to the top, where they may be free. -/
theorem Program.paid_recover (program : Program) (hinfo : Pays tariff .top 0 program.body.recover) :
    Pays tariff .top 0 program.recover := by
  refine (Paid.note _).andThen fun _ => hinfo.andThen fun _ => ?_
  split
  · exact Rule.paid_moduleItems _
  · exact .pure (Nat.le_refl _)

/-- In the session in which a recovery starts there is nothing to pay for. -/
theorem Tariff.session_initial (uri : String) : tariff.session (.initial scope uri) = 0 := by
  have hroot : tariff.kind .root = 0 := rfl
  have hstack : tariff.stack (Session.initial scope uri).stack = 0 := by
    show (if tariff.freeTop then 0 else tariff.tree (.leaf .root _)) + 0 = 0
    rw [Tariff.tree_leaf, hroot, ite_self]
  rw [Tariff.session, hstack]
  rfl

/-- All that a recovery spends is paid for by its warnings. -/
theorem Program.root_le {program : Program} {text : String} {settings : Settings}
    {concrete : Concrete} {tariff : Tariff (Scope.of text program.info settings).source}
    (hpaid : Pays tariff .top 0 program.body.recover)
    (h : (program.concretise text settings).result = .ok concrete) :
    tariff.root concrete.root ≤ tariff.warning * concrete.warnings.length := by
  obtain ⟨later, hrun, hopened, rfl⟩ := Program.ok_of_concretise h
  have htop : Place.top.Holds
      (Session.initial (.of text program.info settings) program.uri).stack := rfl
  have hspent := (program.paid_recover hpaid).spends htop hrun
  have hbalance := hspent.balance
  have hinitial := tariff.session_initial program.uri
  have hnone : tariff.granted (.initial (.of text program.info settings) program.uri) = 0 :=
    Nat.mul_zero _
  have hcount : later.concrete.warnings.length = later.warnings.size := Array.length_toList
  rw [hcount]
  simp only [Tariff.session, Tariff.stack, Tariff.granted] at hbalance hinitial hnone
  show tariff.root later.stack.root ≤ _
  omega

end Concretion
