import Concretion.Proofs.Leaves.Rules

/-!
# The leaves of whole trees

The recovery of a plain tree adds its leaves, in the order of the text. The proof is by induction on
the tree.

- `ForLoop.Parts`, `Stmt.Shown`: what the induction carries for loops and statements. The loop at
  the end of a block is recovered together with the declarations in front of it, so it is not enough
  to know of it what it adds by itself.
- `Expr.adds`, `Stmt.shown`, `Block.adds`: the recovery of whole constructs.
-/

namespace Concretion

open Recover

/-- What the parts of a loop add. -/
structure ForLoop.Parts (scope : Scope) (loop : ForLoop) : Prop where
  init : AddsOptional scope (optionalLeaves loop.init) (optionalFragment loop.init)
  test : AddsOptional scope (optionalLeaves loop.test) (optionalFragment loop.test)
  update : AddsOptional scope (optionalLeaves loop.update) (optionalFragment loop.update)
  body : Adds scope loop.body.leaves loop.body.recover
  kind : loop.kind = .classic ∨ loop.test = none

/-- The statement adds its leaves, and if it is a loop, so do its parts. -/
structure Stmt.Shown (scope : Scope) (statement : Stmt) : Prop where
  adds : Adds scope statement.leaves statement.recover
  parts : ∀ loop ∈ statement.loop?, loop.Parts scope

/-- What a function adds, part by part. -/
structure FunctionDef.Parts (scope : Scope) (definition : FunctionDef) : Prop where
  parameters : ∀ parameter ∈ definition.fragment.parameters, parameter.isPlain = true
  body : Adds scope definition.body.leaves definition.fragment.body.build

/-- The expression adds its leaves. A function that is no expression may be declared by a binding.
-/
structure Expr.Shown (scope : Scope) (expr : Expr) : Prop where
  adds : expr.isPlain = true → AddsNode scope expr.leaves expr.recover
  parts : ∀ definition, expr = .functionDef definition → definition.isPlain = true →
    definition.Parts scope

/-- A block adds its leaves, with a single node if it has braces. -/
structure Block.Shown (scope : Scope) (block : Block) : Prop where
  adds : Adds scope block.leaves block.recover
  braced : block.kind = .braced → AddsNode scope block.leaves block.recover

variable {scope : Scope}

/-! ## Functions -/

theorem FunctionDef.leaves_eq (definition : FunctionDef) :
    definition.leaves = Rule.functionLeaves definition.fragment definition.body.leaves := by
  cases definition
  rfl

theorem FunctionDef.Parts.adds {definition : FunctionDef} (h : definition.Parts scope)
    (hdeclares : definition.declares = false) :
    AddsNode scope definition.leaves (Rule.functionExpression definition.fragment) := by
  rw [definition.leaves_eq]
  exact Rule.adds_functionExpression h.parameters h.body
    (definition.declares_fragment.trans hdeclares)

theorem FunctionDef.Parts.addsDeclaration {definition : FunctionDef} (h : definition.Parts scope)
    (hdeclares : definition.declares = true) (name : Ident) :
    Adds scope definition.leaves
      (Rule.functionExpression definition.fragment >>= fun _ => Rule.ident name) := by
  rw [definition.leaves_eq]
  exact Rule.adds_functionDeclaration name h.parameters h.body
    (definition.declares_fragment.trans hdeclares)

/-! ## Blocks -/

theorem adds_statements {statements : List Stmt}
    (h : ∀ statement ∈ statements, statement.Shown scope) :
    Adds scope (statementLeaves statements) (statements.forM Stmt.recover) := by
  rw [statementLeaves_eq_flatMap]
  exact .forM fun statement hmem => (h statement hmem).adds

theorem adds_fragments {statements : List Stmt}
    (h : ∀ statement ∈ statements, statement.Shown scope) :
    Adds scope (statementLeaves statements) ((statementFragments statements).forM (·.build)) := by
  rw [statementFragments_eq_map, Rule.forM_build]
  exact adds_statements h

theorem ForLoop.Parts.adds {loop : ForLoop} (h : loop.Parts scope) :
    AddsNode scope loop.leaves (Rule.forLoop loop.fragment none) := by
  have hkind : loop.kind = .classic ∨ optionalLeaves loop.test = [] :=
    h.kind.imp_right fun hnone => by rw [hnone]; rfl
  obtain ⟨range, kind, init, test, update, body⟩ := loop
  exact Rule.adds_forLoop (fun placeholder => Rule.adds_clause h.init placeholder) h.test h.update
    h.body hkind

/-- The leaves of the declarations in front of a loop come first. -/
theorem ForLoop.Parts.addsDeclaring {loop : ForLoop} (h : loop.Parts scope)
    {declarations : List Stmt} (hdeclarations : ∀ statement ∈ declarations, statement.Shown scope)
    (hinit : loop.init = none) :
    AddsNode scope (statementLeaves declarations ++ loop.leaves)
      (Rule.declaringLoop loop.fragment (declarations.map Stmt.fragment)) := by
  have hkind : loop.kind = .classic ∨ optionalLeaves loop.test = [] :=
    h.kind.imp_right fun hnone => by rw [hnone]; rfl
  obtain ⟨range, kind, init, test, update, body⟩ := loop
  cases hinit
  have hfirst := adds_fragments hdeclarations
  rw [statementFragments_eq_map] at hfirst
  show AddsNode scope (statementLeaves declarations ++
    (optionalLeaves test ++ (optionalLeaves update ++ body.leaves))) _
  exact Rule.adds_declaringLoop hfirst rfl h.test h.update h.body hkind

theorem adds_syntheticBlock {statements : List Stmt}
    (h : ∀ statement ∈ statements, statement.Shown scope)
    (hheaded : ∀ loop ∈ closingLoop? statements,
      ((loop.header statements).isEmpty || loop.init.isNone) = true) :
    Adds scope (statementLeaves statements)
      (Rule.syntheticBlock (statementFragments statements)) := by
  cases hclosing : closingLoop? statements with
  | none =>
    rw [Rule.syntheticBlock_of_none hclosing]
    exact adds_statements h
  | some loop =>
    -- The declarations in the header of the last loop stand in front of it, so the leaves come in
    -- the order of the statements however they are recovered.
    have hsplit := ForLoop.front_append_header hclosing
    have hmem : ∀ statement ∈ loop.front statements ++
        (loop.header statements ++ [.forLoop loop]), statement.Shown scope :=
      fun statement hstatement => h statement (hsplit ▸ hstatement)
    rw [List.forall_mem_append, List.forall_mem_append] at hmem
    obtain ⟨hfront, hheader, hloop⟩ := hmem
    have hparts : loop.Parts scope := (hloop _ List.mem_cons_self).parts loop rfl
    have hleaves : statementLeaves statements = statementLeaves (loop.front statements) ++
        (statementLeaves (loop.header statements) ++ loop.leaves) := by
      have hstatements := statementLeaves_eq_flatMap statements
      rw [hsplit, List.flatMap_append, List.flatMap_append, ← hsplit] at hstatements
      rw [hstatements, statementLeaves_eq_flatMap, statementLeaves_eq_flatMap]
      simp [Stmt.leaves]
    rw [Rule.syntheticBlock_of_loop hclosing, hleaves]
    refine (adds_statements hfront).andThen ?_
    split
    · next hempty =>
      rw [List.isEmpty_iff.1 hempty]
      exact hparts.adds.adds
    · next hdeclarations =>
      have hinit := hheaded loop hclosing
      rw [Bool.eq_false_iff.2 hdeclarations, Bool.false_or] at hinit
      exact (hparts.addsDeclaring hheader (Option.isNone_iff_eq_none.1 hinit)).adds

theorem shown_block (range : Range) {kind : BlockKind} {statements : List Stmt}
    (h : ∀ statement ∈ statements, statement.Shown scope) (hkind : (kind != .parameter) = true)
    (hheaded : isHeaded kind statements = true) :
    (Block.mk range kind statements).Shown scope := by
  cases kind with
  | parameter => cases hkind
  | braced =>
    have hbraced : AddsNode scope (statementLeaves statements)
        (Rule.bracedBlock range (statementFragments statements)) :=
      Rule.adds_bracedBlock (adds_fragments h)
    exact ⟨hbraced.adds, fun _ => hbraced⟩
  | synthetic =>
    refine ⟨adds_syntheticBlock h fun loop hloop => ?_, nofun⟩
    have hall : (closingLoop? statements).all _ = true := hheaded
    rw [hloop] at hall
    exact hall

theorem optionalBlock_adds {block : Option Block} (h : ∀ part ∈ block, part.Shown scope) :
    (∀ part ∈ optionalBlock block, Adds scope (blockLeaves block) part.build) ∧
      (optionalBlock block = none → blockLeaves block = []) := by
  cases block with
  | none => exact ⟨nofun, fun _ => rfl⟩
  | some block =>
    refine ⟨fun part hpart => ?_, nofun⟩
    cases hpart
    exact (h block rfl).adds

/-! ## Statements with several blocks -/

theorem adds_branch {range : Range} {test : Expr} {pass : Block} {fail : Option Block}
    (htest : AddsNode scope test.leaves test.recover) (hpass : Adds scope pass.leaves pass.recover)
    (hfail : ∀ part ∈ optionalBlock fail, Adds scope (blockLeaves fail) part.build)
    (hnone : optionalBlock fail = none → blockLeaves fail = []) :
    AddsNode scope (test.leaves ++ (pass.leaves ++ blockLeaves fail))
      (Rule.ifElse range (test.fragmentOf test.recover) ⟨pass.range, pass.recover⟩
        (optionalBlock fail)) :=
  Rule.adds_ifElse htest hpass hfail hnone

theorem adds_loop {range : Range} {test : Expr} {body : Block} (isDo : Bool)
    (htest : AddsNode scope test.leaves test.recover)
    (hbody : Adds scope body.leaves body.recover) :
    Adds scope (Stmt.whileLoop range isDo test body).leaves
      (Stmt.whileLoop range isDo test body).recover := by
  cases isDo with
  | true =>
    have hloop : AddsNode scope (body.leaves ++ test.leaves)
        (Rule.doLoop range (test.fragmentOf test.recover) ⟨body.range, body.recover⟩) :=
      Rule.adds_doLoop htest hbody
    exact hloop.adds
  | false =>
    have hloop : AddsNode scope (test.leaves ++ body.leaves)
        (Rule.whileLoop range (test.fragmentOf test.recover) ⟨body.range, body.recover⟩) :=
      Rule.adds_whileLoop htest hbody
    exact hloop.adds

/-- The blocks of `try` and `finally` have braces, so each is a single node. -/
theorem adds_try {range : Range} {body : Block} {catches : List CatchClause}
    {finalizer : Option Block} (hbody : body.Shown scope)
    (hcatches : (∀ handler, catchBuilds catches = [handler] →
        AddsNode scope (catchLeaves catches) handler) ∧
      (catchBuilds catches = [] → catchLeaves catches = []))
    (hfinally : ∀ part ∈ finalizer, part.Shown scope)
    (hbraced : (body.kind == .braced && finalizer.all (·.kind == .braced)) = true) :
    AddsNode scope (body.leaves ++ (catchLeaves catches ++ blockLeaves finalizer))
      (Rule.tryCatch range ⟨body.range, body.recover⟩ (catchBuilds catches)
        (optionalBlock finalizer)) := by
  obtain ⟨hkind, hall⟩ := Bool.and_eq_true_iff.1 hbraced
  refine Rule.adds_tryCatch (hbody.braced (eq_of_beq hkind)) hcatches.1 hcatches.2 ?_ ?_
  · rintro part hpart
    cases finalizer with
    | none => cases hpart
    | some block =>
      cases hpart
      exact (hfinally block rfl).braced (eq_of_beq hall)
  · intro habsent
    cases finalizer with
    | none => rfl
    | some block => cases habsent

/-! ## Bindings -/

theorem adds_variable (range : Range) {name : Ident} (init : Option Expr) (kind : BindingKind)
    (h : AddsOptional scope (optionalLeaves init) (optionalFragment init))
    (hname : (name.name != defaultBindingName) = true) :
    Adds scope (name.leaf :: optionalLeaves init)
      (Rule.binding ⟨range, name, optionalFragment init, kind, false⟩) :=
  Rule.adds_variable h (bne_iff_ne.1 hname) rfl

/-- The name of a binding stands in front of its value, unless it is a function that is declared. -/
theorem adds_valueBinding {range : Range} {name : Ident} {value : Expr} {kind : BindingKind}
    {isFunctionDeclaration : Bool} (hvalue : value.Shown scope)
    (h : (Binding.mk range name (some value) kind isFunctionDeclaration).isPlain = true) :
    Adds scope (Binding.mk range name (some value) kind isFunctionDeclaration).leaves
      (Binding.mk range name (some value) kind isFunctionDeclaration).recover := by
  cases value with
  | classDef definition =>
    have hclass := (Bool.and_eq_true_iff.1 (Bool.and_eq_true_iff.1 h).2).2
    cases hclass
  | functionDef definition =>
    obtain ⟨hname, h⟩ := Bool.and_eq_true_iff.1 h
    obtain ⟨hdeclares, hplain⟩ := Bool.and_eq_true_iff.1 h
    have hparts := hvalue.parts definition rfl hplain
    cases isFunctionDeclaration with
    | true =>
      refine Rule.adds_declaredFunction ?_ rfl (bne_iff_ne.1 hname) rfl
      exact hparts.addsDeclaration (eq_of_beq hdeclares) name
    | false =>
      exact adds_variable range (some (.functionDef definition)) kind
        (hparts.adds (eq_of_beq hdeclares)) hname
  | _ =>
    obtain ⟨hname, h⟩ := Bool.and_eq_true_iff.1 h
    obtain ⟨hvariable, hplain⟩ := Bool.and_eq_true_iff.1 h
    cases isFunctionDeclaration with
    | true => cases hvariable
    | false => exact adds_variable range (some _) kind (hvalue.adds hplain) hname

/-! ## The induction -/

mutual

theorem Expr.shown (expr : Expr) : expr.Shown scope :=
  match expr with
  | .ident name => ⟨fun _ => Rule.adds_ident name, nofun⟩
  | .literal _ value => ⟨fun _ => Rule.adds_literal value, nofun⟩
  | .array _ elements => ⟨fun h => Rule.adds_array (elements_add elements h), nofun⟩
  | .unary _ _ operand => ⟨fun h => Rule.adds_unary (operand.shown.adds h), nofun⟩
  | .binary _ _ left right =>
    ⟨fun h =>
      have ⟨hleft, hright⟩ := Bool.and_eq_true_iff.1 h
      Rule.adds_binary (left.shown.adds hleft) (right.shown.adds hright), nofun⟩
  | .conditional _ test consequent alternate =>
    ⟨fun h =>
      have ⟨htest, h⟩ := Bool.and_eq_true_iff.1 h
      have ⟨hconsequent, halternate⟩ := Bool.and_eq_true_iff.1 h
      Rule.adds_conditional (test.shown.adds htest) (consequent.shown.adds hconsequent)
        (alternate.shown.adds halternate), nofun⟩
  | .call _ callee arguments =>
    ⟨fun h =>
      have ⟨hcallee, harguments⟩ := Bool.and_eq_true_iff.1 h
      have ⟨hadd, hnone⟩ := arguments_add arguments harguments
      Rule.adds_call (callee.shown.adds hcallee) hadd hnone, nofun⟩
  | .access _ base _ => ⟨fun h => Rule.adds_access (base.shown.adds h), nofun⟩
  | .index _ base index =>
    ⟨fun h =>
      have ⟨hbase, hindex⟩ := Bool.and_eq_true_iff.1 h
      Rule.adds_index (base.shown.adds hbase) (index.shown.adds hindex), nofun⟩
  | .object .. => ⟨fun h => Bool.noConfusion h, nofun⟩
  | .functionDef definition =>
    ⟨fun h =>
      have ⟨hdeclares, hplain⟩ := Bool.and_eq_true_iff.1 h
      (definition.parts hplain).adds (by simpa using hdeclares),
      fun _ heq hplain =>
        Expr.functionDef.inj heq ▸ definition.parts (Expr.functionDef.inj heq ▸ hplain)⟩
  | .classDef _ => ⟨fun h => Bool.noConfusion h, nofun⟩
termination_by structural expr

theorem elements_add (elements : List (Option Expr)) (h : elementsPlain elements = true)
    (hole : Nat) : Adds scope (elementLeaves elements)
      ((elementFragments elements).forM (Rule.element hole)) :=
  match elements with
  | [] => .pure
  | none :: rest =>
    Adds.silently (Rule.adds_element hole rfl) (elements_add rest h hole)
  | some element :: rest =>
    have ⟨helement, hrest⟩ := Bool.and_eq_true_iff.1 h
    Adds.andThen (Rule.adds_element hole (element.shown.adds helement))
      (elements_add rest hrest hole)
termination_by structural elements

theorem arguments_add (arguments : List Expr) (h : argumentsPlain arguments = true) :
    Adds scope (argumentLeaves arguments) ((argumentFragments arguments).forM (·.build)) ∧
      (argumentFragments arguments = [] → argumentLeaves arguments = []) :=
  match arguments with
  | [] => ⟨.pure, fun _ => rfl⟩
  | argument :: rest =>
    have ⟨hargument, hrest⟩ := Bool.and_eq_true_iff.1 h
    ⟨Adds.andThen (argument.shown.adds hargument).adds (arguments_add rest hrest).1, nofun⟩
termination_by structural arguments

theorem optional_adds (expr : Option Expr) (h : optionalPlain expr = true) :
    AddsOptional scope (optionalLeaves expr) (optionalFragment expr) :=
  match expr with
  | none => rfl
  | some expr => expr.shown.adds h
termination_by structural expr

theorem FunctionDef.parts (definition : FunctionDef) (h : definition.isPlain = true) :
    definition.Parts scope :=
  match definition with
  | ⟨_, _, _, _, body, _, _, _, _⟩ =>
    have ⟨hparameters, hbody⟩ := Bool.and_eq_true_iff.1 h
    ⟨List.all_eq_true.1 hparameters, (body.shown hbody).adds⟩
termination_by structural definition

theorem Block.shown (block : Block) (h : block.isPlain = true) : block.Shown scope :=
  match block with
  | ⟨range, _, statements⟩ =>
    have ⟨hkind, h⟩ := Bool.and_eq_true_iff.1 h
    have ⟨hheaded, hstatements⟩ := Bool.and_eq_true_iff.1 h
    shown_block range (statements_shown statements hstatements) hkind hheaded
termination_by structural block

theorem statements_shown (statements : List Stmt) (h : statementsPlain statements = true) :
    ∀ statement ∈ statements, statement.Shown scope :=
  match statements with
  | [] => List.forall_mem_nil _
  | statement :: rest =>
    have ⟨hstatement, hrest⟩ := Bool.and_eq_true_iff.1 h
    List.forall_mem_cons.2 ⟨statement.shown hstatement, statements_shown rest hrest⟩
termination_by structural statements

theorem optionalBlock_shown (block : Option Block) (h : blockPlain block = true) :
    ∀ part ∈ block, part.Shown scope :=
  match block with
  | none => nofun
  | some block => fun _ hpart => Option.some.inj hpart ▸ block.shown h
termination_by structural block

theorem Stmt.shown (statement : Stmt) (h : statement.isPlain = true) : statement.Shown scope :=
  match statement with
  | .binding definition => ⟨definition.adds h, nofun⟩
  | .expression _ expr => ⟨(Rule.adds_expressionStatement (expr.shown.adds h)).adds, nofun⟩
  | .block body => ⟨(body.shown h).adds, nofun⟩
  | .empty _ => ⟨Rule.adds_emptyStatement.adds, nofun⟩
  | .ifElse _ test pass fail =>
    have ⟨htest, h⟩ := Bool.and_eq_true_iff.1 h
    have ⟨hpass, hfail⟩ := Bool.and_eq_true_iff.1 h
    have ⟨hadd, hnone⟩ := optionalBlock_adds (optionalBlock_shown fail hfail)
    ⟨(adds_branch (test.shown.adds htest) (pass.shown hpass).adds hadd hnone).adds, nofun⟩
  | .forLoop loop => ⟨(loop.parts h).adds.adds, fun _ hloop => Option.some.inj hloop ▸ loop.parts h⟩
  | .whileLoop _ isDo test body =>
    have ⟨htest, hbody⟩ := Bool.and_eq_true_iff.1 h
    ⟨adds_loop isDo (test.shown.adds htest) (body.shown hbody).adds, nofun⟩
  | .switch _ subject cases =>
    have ⟨hsubject, hcases⟩ := Bool.and_eq_true_iff.1 h
    ⟨(Rule.adds_switch (subject.shown.adds hsubject) (cases_add cases hcases)).adds, nofun⟩
  | .tryCatch _ body catches finalizer =>
    have ⟨hbraced, h⟩ := Bool.and_eq_true_iff.1 h
    have ⟨hbody, h⟩ := Bool.and_eq_true_iff.1 h
    have ⟨hcatches, hfinally⟩ := Bool.and_eq_true_iff.1 h
    ⟨(adds_try (body.shown hbody) (catches_add catches hcatches)
      (optionalBlock_shown finalizer hfinally) hbraced).adds, nofun⟩
  | .throwValue _ value => ⟨(Rule.adds_throwStatement (value.shown.adds h)).adds, nofun⟩
  | .returnValue _ value isGenerated =>
    ⟨Rule.adds_returnStatement isGenerated (optional_adds value h), nofun⟩
  | .jump _ kind label => ⟨(Rule.adds_jump kind label).adds, nofun⟩
  | .labelled _ _ body => ⟨(Rule.adds_labelled (body.shown h).adds).adds, nofun⟩
  | .withScope _ subject body =>
    have ⟨hsubject, hbody⟩ := Bool.and_eq_true_iff.1 h
    ⟨(Rule.adds_withScope (subject.shown.adds hsubject) (body.shown hbody).adds).adds, nofun⟩
termination_by structural statement

theorem Binding.adds (binding : Binding) (h : binding.isPlain = true) :
    Adds scope binding.leaves binding.recover :=
  match binding with
  | ⟨_, _, none, _, true⟩ => Bool.noConfusion (Bool.and_eq_true_iff.1 h).2
  | ⟨range, _, none, kind, false⟩ =>
    have ⟨hname, _⟩ := Bool.and_eq_true_iff.1 h
    adds_variable range none kind rfl hname
  | ⟨_, _, some value, _, _⟩ => adds_valueBinding value.shown h
termination_by structural binding

theorem ForLoop.parts (loop : ForLoop) (h : loop.isPlain = true) : loop.Parts scope :=
  match loop with
  | ⟨_, _, init, test, update, body⟩ =>
    have ⟨hkind, h⟩ := Bool.and_eq_true_iff.1 h
    have ⟨hinit, h⟩ := Bool.and_eq_true_iff.1 h
    have ⟨htest, h⟩ := Bool.and_eq_true_iff.1 h
    have ⟨hupdate, hbody⟩ := Bool.and_eq_true_iff.1 h
    ⟨optional_adds init hinit, optional_adds test htest, optional_adds update hupdate,
      (body.shown hbody).adds,
      (Bool.or_eq_true_iff.1 hkind).imp eq_of_beq Option.isNone_iff_eq_none.1⟩
termination_by structural loop

theorem cases_add (cases : List SwitchCase) (h : casesPlain cases = true) :
    Adds scope (caseLeaves cases) ((caseBuilds cases).forM (·.2)) :=
  match cases with
  | [] => .pure
  | clause :: rest =>
    have ⟨hclause, hrest⟩ := Bool.and_eq_true_iff.1 h
    Adds.andThen (clause.adds hclause).adds (cases_add rest hrest)
termination_by structural cases

theorem SwitchCase.adds (clause : SwitchCase) (h : clause.isPlain = true) :
    AddsNode scope clause.leaves clause.recover :=
  match clause with
  | ⟨_, test, statements⟩ =>
    have ⟨htest, hstatements⟩ := Bool.and_eq_true_iff.1 h
    Rule.adds_switchCase (optional_adds test htest)
      (adds_fragments (statements_shown statements hstatements))
termination_by structural clause

theorem catches_add (catches : List CatchClause) (h : catchesPlain catches = true) :
    (∀ handler, catchBuilds catches = [handler] → AddsNode scope (catchLeaves catches) handler) ∧
      (catchBuilds catches = [] → catchLeaves catches = []) :=
  match catches with
  | [] => ⟨nofun, fun _ => rfl⟩
  | ⟨_, exception, body⟩ :: rest =>
    have ⟨hbody, hrest⟩ := Bool.and_eq_true_iff.1 h
    have ⟨_, hnone⟩ := catches_add rest hrest
    ⟨fun handler hhandler => by
      obtain ⟨rfl, hempty⟩ := List.cons_eq_cons.1 hhandler
      rw [catchLeaves, hnone hempty, List.append_nil]
      exact Rule.adds_catchClause (body.shown hbody).adds, nofun⟩
termination_by structural catches

end

end Concretion
