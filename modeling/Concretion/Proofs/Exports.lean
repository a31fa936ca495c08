import Concretion.Proofs.Header
import Concretion.Proofs.Paid.Tree

/-!
# Exported names

Whether a declaration is exported is decided by its name alone. So the metadata of a module makes no
difference to declarations of names that are not exported, and export statements come up below the
top level only where the name of a nested declaration is exported as well.

- `Program.nested`: the names declared below the top level.
- `exports_are_top_level`: both facts.
- `Program.shadowInFunction`, `Program.shadowInHeader`: nested declarations that have the name of an
  exported variable, and are taken for exported.
-/

namespace Concretion

open Recover

/-! ## Nested names -/

/-- The names declared below the top level by statements there. Declarations that go into the header
of a loop belong to the loop. -/
def nestedNames (statements : List Stmt) : List String :=
  match closingLoop? statements with
  | none => statements.flatMap Stmt.inner
  | some loop => (loop.front statements).flatMap Stmt.inner ++
      (declaredStatements (loop.header statements) ++ loop.declared)

/-- The names declared below the top level of a program. -/
def Program.nested (program : Program) : List String :=
  match program.body with
  | ⟨_, .synthetic, statements⟩ => nestedNames statements
  | body => body.declared

/-! ## Paying at the top -/

/-- A node keeps its kind while it is open. -/
theorem Recover.kind_of_within {scope : Scope} {node covered : Node} {body : Recover Unit}
    {session last : Session} (hsound : Builds False true body)
    (h : (within node body).outcome scope session = (.ok covered, last)) :
    covered.kind = node.kind := by
  obtain ⟨later, closed, hrun, hopened, -, -, -, -, hcover⟩ := ok_of_within h
  have hkept := hsound.kept scope (session.opening node) fun hfalse => hfalse.elim
  rw [hrun] at hkept
  obtain ⟨inner, hkind, -, -, hpush⟩ := hkept.frame.of_push
  have hstack : later.stack = session.stack.push inner := hpush
  rw [hstack] at hopened
  obtain ⟨span, rfl⟩ := Node.eq_of_cover hcover
  obtain ⟨heq, -⟩ := List.cons_eq_cons.1 hopened
  exact heq ▸ hkind

section Top

variable {scope : Scope} {tariff : Tariff scope.source}

/-- Of a statement at the top no more has to be paid for than what is below it. -/
theorem paid_attach_top (hfree : tariff.freeTop = true) (node : Node) :
    Pays tariff .top (tariff.below node) (attach node) := by
  refine .modifyStack fun stack htop => ⟨Paid.depth_modifyCurrent _ _, ?_⟩
  rw [stack.attach_eq_setChildren]
  refine tariff.stack_setChildren (fun hpriced => ?_) fun _ _ => ?_
  · exact absurd (hpriced htop) (by rw [hfree]; decide)
  · rw [Tariff.allBelow_append, Tariff.allBelow_singleton]

theorem exports_top (hfree : tariff.freeTop = true) (status : ExportStatus) :
    Rule.Exports tariff .top status 0 := by
  intro node windowStart
  have hbelow : Paid tariff .top (tariff.tree node + 0) (Rule.exportIf status node windowStart)
      tariff.below := by
    unfold Rule.exportIf
    split
    · refine (Paid.findLastWord? _ _ _ (by decide)).pays.andThen fun keyword => ?_
      refine (Paid.spanBetween _ _).andThen fun span => .pure ?_
      rw [Tariff.below, Tariff.trees_cons, Tariff.trees_nil, Tariff.tree_mark]
    · exact .pure (tariff.below_le node)
  exact hbelow.payOff fun made => paid_attach_top hfree made

/-- At the top, every name may be exported. -/
theorem exportable_top (hfree : tariff.freeTop = true) (hloud : ¬tariff.discreet) (name : String) :
    Rule.Exportable tariff .top name :=
  ⟨fun _ => 0, .exportStatus rfl fun hdiscreet => absurd hdiscreet hloud,
    fun status => exports_top hfree status⟩

/-- If its kind is free, a node costs what is put below it. -/
theorem paid_within_below {kind : NodeKind} {span : Span} {body : Recover Unit}
    (hbody : Pays tariff .inside 0 body) (hsound : Builds False true body) :
    Paid tariff .top 0 (within (.leaf kind span) body) tariff.below where
  spends {session last node} htop hrun := by
    have hwithin : Paid tariff .top (tariff.tree (.leaf kind span) + 0)
        (within (.leaf kind span) body) tariff.tree := .within hbody
    have hspent := hwithin.spends htop hrun
    have hkind : node.kind = kind := kind_of_within hsound hrun
    have hbalance := hspent.balance
    rw [tariff.tree_eq node, hkind, Tariff.tree_leaf] at hbalance
    exact ⟨hspent.depth, by omega⟩
  blind hdiscreet := by
    have hwithin : Paid tariff .top (tariff.tree (.leaf kind span) + 0)
        (within (.leaf kind span) body) tariff.tree := .within hbody
    exact hwithin.blind hdiscreet

theorem paid_defaultExport_top (hfree : tariff.freeTop = true) {binding : BindingFragment}
    (h : binding.Paid tariff) (hsound : ∀ init ∈ binding.init, Builds False true init.build) :
    Pays tariff .top 0 (Rule.defaultExport binding) := by
  unfold Rule.defaultExport
  split
  · exact (Paid.rangeSpan _ _).andThen fun span => .throw
  · next init hinit =>
    refine Paid.gapStart.andThen fun windowStart => ?_
    refine (Paid.findLastWord? _ _ _ (by decide)).pays.andThen fun keyword => ?_
    refine (Paid.rangeSpan _ _).andThen fun span => ?_
    refine (paid_within_below (h init hinit).builds (hsound init hinit)).payOff fun node => ?_
    refine Paid.takeSkip.andThen fun _ => (Paid.terminates _ _).andThen fun flag => ?_
    exact paid_attach_top hfree { node with ownsSemicolon := flag }

/-! ## Statements at the top -/

variable (hfree : tariff.freeTop = true) (hloud : ¬tariff.discreet)

include hfree hloud

theorem paid_binding_top {binding : BindingFragment} (h : binding.Paid tariff)
    (hsound : ∀ init ∈ binding.init, Builds False true init.build) :
    Pays tariff .top 0 (Rule.binding binding) :=
  Rule.paid_binding (fun _ => paid_defaultExport_top hfree h hsound)
    (fun _ _ => Rule.paid_valueAndName (Fragment.paid_buildOptional h))
    fun _ _ => Rule.paid_variableBinding h (exportable_top hfree hloud _)

/-- At the top, the name of a function declaration may be exported. -/
theorem paid_function_top {definition : FunctionDef} (h : tariff.Hides definition.inner) :
    Pays tariff .top 0 (Expr.functionDef definition).recover :=
  Rule.paid_functionExpression (definition.paid h) fun _ => exportable_top hfree hloud _

theorem Binding.paid_top (binding : Binding) (h : tariff.Hides binding.inner) :
    Pays tariff .top 0 binding.recover := by
  obtain ⟨range, name, _ | value, kind, isFunctionDeclaration⟩ := binding
  · exact paid_binding_top hfree hloud (fun _ hnone => by cases hnone) fun _ hnone => by cases hnone
  · have hbinding : tariff.Hides value.declared → Pays tariff .top 0 (Rule.binding
        ⟨range, name, some (value.fragmentOf value.recover), kind, isFunctionDeclaration⟩) := by
      intro hvalue
      refine paid_binding_top hfree hloud (fun part hpart => ?_) fun part hpart => ?_
      · exact Option.some.inj hpart ▸ (value.paid hvalue).builds
      · exact Option.some.inj hpart ▸ (value.sound False).builds.relax
    -- A class and a declared function are exported by rules of their own; all other values are
    -- below the declaration.
    cases value with
    | classDef definition =>
      have hdefinition := definition.paid h
      simp only [Binding.recover]
      split
      · exact Rule.paid_classDeclaration name hdefinition (exportable_top hfree hloud _)
          fun _ => exports_top hfree _
      · exact hbinding h
    | functionDef definition =>
      cases isFunctionDeclaration with
      | false => exact hbinding h
      | true =>
        by_cases hdefault : name.name = defaultBindingName
        · refine hbinding ?_
          rwa [Binding.inner, if_pos (beq_iff_eq.2 hdefault)] at h
        · rw [Binding.inner, if_neg (by simpa using hdefault)] at h
          exact Rule.paid_binding (fun heq => absurd heq hdefault)
            (fun _ _ => Rule.paid_valueAndName (paid_function_top hfree hloud h)) nofun
    | _ => exact hbinding h

theorem Stmt.paid_top (statement : Stmt) (h : tariff.Hides statement.inner) :
    Pays tariff .top 0 statement.recover := by
  cases statement with
  | binding definition => exact definition.paid_top hfree hloud h
  | expression range expr =>
    refine Rule.paid_expressionStatement ?_
    cases expr with
    | functionDef definition => exact paid_function_top hfree hloud h
    | _ => exact (Expr.paid _ h).builds.relax
  | _ => exact (Stmt.paid _ h).relax

theorem paid_statements_top {statements : List Stmt}
    (h : tariff.Hides (statements.flatMap Stmt.inner)) :
    Pays tariff .top 0 (statements.forM Stmt.recover) :=
  Paid.forM fun statement hmem => statement.paid_top hfree hloud fun name hname =>
    h name (List.mem_flatMap.2 ⟨statement, hmem, hname⟩)

theorem Program.paid_body (program : Program) (h : tariff.Hides program.nested) :
    Pays tariff .top 0 program.body.recover := by
  obtain ⟨uri, ⟨range, kind, statements⟩, info⟩ := program
  cases kind with
  | braced => exact (Block.paid _ h).relax
  | parameter => exact (Block.paid _ h).relax
  | synthetic =>
    change Pays tariff .top 0 (Rule.syntheticBlock (statementFragments statements))
    change tariff.Hides (nestedNames statements) at h
    unfold nestedNames at h
    cases hclosing : closingLoop? statements with
    | none =>
      rw [hclosing] at h
      rw [Rule.syntheticBlock_of_none hclosing]
      exact paid_statements_top hfree hloud h
    | some loop =>
      rw [hclosing] at h
      obtain ⟨hfront, h⟩ := Tariff.hides_append.1 h
      obtain ⟨hheader, hloop⟩ := Tariff.hides_append.1 h
      have hloop := loop.paid hloop
      rw [Rule.syntheticBlock_of_loop hclosing]
      refine (paid_statements_top hfree hloud hfront).andThen fun _ => ?_
      split
      · exact Rule.paid_forLoop none hloop
      · rw [← statementFragments_eq_map]
        exact Rule.paid_declaringLoop hloop (statementFragments_paid _ hheader)

end Top

/-! ## The metadata of a module -/

/-- The metadata makes no difference to a statement in which no exported name is declared. -/
theorem Stmt.outcome_uninformed {scope : Scope} {statement : Stmt}
    (h : ∀ name ∈ statement.declared, ExportStatus.of scope.info name = .hidden)
    (session : Session) :
    statement.recover.outcome scope session =
      statement.recover.outcome scope.uninformed session := by
  have hhides : (Tariff.silence scope.source).Hides statement.declared :=
    fun name hname => ⟨fun _ => h name hname, .inl rfl⟩
  exact (statement.paid hhides).blind trivial session

/-- If no nested name is exported, export statements are right below the root. -/
theorem Program.exports_below_root {program : Program} {text : String} {settings : Settings}
    {concrete : Concrete} (hresult : (program.concretise text settings).result = .ok concrete)
    (h : ∀ name ∈ program.nested, ExportStatus.of program.info name = .hidden ∧
      name ≠ defaultBindingName) :
    ∀ child ∈ concrete.root.children, ∀ part ∈ Node.preorderList child.children,
      part.kind.isExport = false := by
  let scope := Scope.of text program.info settings
  let tariff := Tariff.nesting scope.source
  have hhides : tariff.Hides program.nested :=
    fun name hname => ⟨fun _ => (h name hname).1, .inr (h name hname).2⟩
  have hroot := Program.root_le (program.paid_body rfl id hhides) hresult
  have hfree : tariff.allBelow concrete.root.children ≤ 0 := by
    rwa [show tariff.warning * concrete.warnings.length = 0 from Nat.zero_mul _] at hroot
  intro child hchild part hpart
  have hbelow : tariff.below child = 0 :=
    List.sum_eq_zero_iff_forall_eq_nat.1 (Nat.le_zero.1 hfree) _ (List.mem_map_of_mem hchild)
  rw [Tariff.below, ← Tariff.sum_preorderList] at hbelow
  have hkind : tariff.kind part.kind = 0 :=
    List.sum_eq_zero_iff_forall_eq_nat.1 hbelow _ (List.mem_map_of_mem hpart)
  cases hexport : part.kind.isExport with
  | false => rfl
  | true =>
    rw [Tariff.kind, hexport] at hkind
    cases hkind

/-- Metadata concerns exported names only. Statements that declare none of them are recovered as
without any, whatever is open and in whichever mode. If no nested name is exported, and the bindings
made up for default exports are not nested either, export statements are right below the root. -/
theorem exports_are_top_level (program : Program) (text : String) (settings : Settings) :
    (∀ statement : Stmt, (∀ name ∈ statement.declared,
        ExportStatus.of program.info name = .hidden) →
      ∀ (source : Source) (strict : Bool) (session : Session),
        statement.recover.outcome ⟨source, program.info, strict⟩ session =
          statement.recover.outcome ⟨source, none, strict⟩ session) ∧
    ((∀ name ∈ program.nested, ExportStatus.of program.info name = .hidden ∧
        name ≠ defaultBindingName) →
      match (program.concretise text settings).result with
      | .ok concrete => ∀ child ∈ concrete.root.children,
          ∀ part ∈ Node.preorderList child.children, part.kind.isExport = false
      | .error _ => True) := by
  refine ⟨fun statement hhidden source strict session => ?_, fun hnested => ?_⟩
  · exact Stmt.outcome_uninformed hhidden session
  · split
    · next concrete hresult => exact program.exports_below_root hresult hnested
    · trivial

/-- An exported variable in front of a block that declares a variable of the given name, as in
`export var a; { var b; }`. -/
def Program.exportBeforeBlock (name : String) : Program :=
  ⟨"file:///test.js", ⟨⟨0, 24⟩, .synthetic,
    [.binding ⟨⟨11, 12⟩, ⟨⟨11, 12⟩, "a", false, false⟩, none, .var, false⟩,
      .block ⟨⟨14, 24⟩, .braced,
        [.binding ⟨⟨20, 21⟩, ⟨⟨20, 21⟩, name, false, false⟩, none, .var, false⟩]⟩]⟩,
    some ⟨[], [⟨some "a", some "a", none⟩], []⟩⟩

/-- In the block another name is not exported. -/
theorem other_name_is_not_exported :
    let program := Program.exportBeforeBlock "b"
    let block := Stmt.block ⟨⟨14, 24⟩, .braced,
      [.binding ⟨⟨20, 21⟩, ⟨⟨20, 21⟩, "b", false, false⟩, none, .var, false⟩]⟩
    let outcome := program.concretise "export var a; \x7b var b; \x7d" Settings.unforgiving
    block.declared = ["b"] ∧ program.nested = ["b"] ∧
      outcome.result.toOption.map (fun concrete => concrete.root.children.map (·.kind.name)) =
        some ["Export", "Statements"] ∧
      (∀ (source : Source) (strict : Bool) (session : Session),
        block.recover.outcome ⟨source, program.info, strict⟩ session =
          block.recover.outcome ⟨source, none, strict⟩ session) ∧
      match outcome.result with
      | .ok concrete => ∀ child ∈ concrete.root.children,
          ∀ part ∈ Node.preorderList child.children, part.kind.isExport = false
      | .error _ => True := by
  intro program block outcome
  obtain ⟨huninformed, hbelow⟩ := exports_are_top_level program
    "export var a; \x7b var b; \x7d" Settings.unforgiving
  exact ⟨rfl, rfl, by decide +kernel, huninformed block (by decide), hbelow (by decide)⟩

/-- An exported variable in front of a function with a variable of the same name, as in
`export let a; function f() { let a; }`. -/
def Program.shadowInFunction : Program :=
  ⟨"file:///test.js", ⟨⟨0, 37⟩, .synthetic,
    [.binding ⟨⟨11, 12⟩, ⟨⟨11, 12⟩, "a", false, false⟩, none, .let, false⟩,
      .binding ⟨⟨23, 37⟩, ⟨⟨23, 24⟩, "f", false, false⟩,
        some (.functionDef ⟨⟨14, 37⟩, ⟨⟨23, 24⟩, "f", false, false⟩, .normal, [],
          ⟨⟨27, 37⟩, .braced,
            [.binding ⟨⟨33, 34⟩, ⟨⟨33, 34⟩, "a", false, false⟩, none, .let, false⟩]⟩,
          false, false, true, false⟩), .var, true⟩]⟩,
    some ⟨[], [⟨some "a", some "a", none⟩], []⟩⟩

/-- In the function the name of the exported variable is exported once more. Its keyword is looked
for and missed, which ends a strict recovery. -/
example :
    let text := "export let a; function f() \x7b let a; \x7d"
    (Program.shadowInFunction.concretise text ⟨.skipTrivia, false, true⟩).result.toOption.map
        (fun concrete => (concrete.root.children.flatMap fun child =>
          (Node.preorderList child.children).filterMap fun part =>
            if part.kind.isExport then some part.span else none,
          concrete.warnings.map (·.token))) =
      some ([⟨29, 33⟩], ["export"]) ∧
    (Program.shadowInFunction.concretise text Settings.unforgiving).result.isOk = false := by
  decide +kernel

/-- An exported variable in front of a loop whose header declares a variable of the same name, as in
`export let i; for (let i = 0;;) {}`. -/
def Program.shadowInHeader : Program :=
  ⟨"file:///test.js", ⟨⟨0, 34⟩, .synthetic,
    [.binding ⟨⟨11, 12⟩, ⟨⟨11, 12⟩, "i", false, false⟩, none, .let, false⟩,
      .block ⟨⟨14, 34⟩, .synthetic,
        [.binding ⟨⟨23, 28⟩, ⟨⟨23, 24⟩, "i", false, false⟩,
            some (.literal ⟨27, 28⟩ .number), .let, false⟩,
          .forLoop ⟨⟨14, 34⟩, .classic, none, none, none, ⟨⟨32, 34⟩, .braced, []⟩⟩]⟩]⟩,
    some ⟨[], [⟨some "i", some "i", none⟩], []⟩⟩

/-- In the header of a loop the declaration is made an export statement, which the header does not
take. The recovery ends there in either mode, and goes well without the metadata. -/
example :
    let text := "export let i; for (let i = 0;;) \x7b\x7d"
    let program := Program.shadowInHeader
    (program.concretise text ⟨.skipTrivia, false, true⟩).result.isOk = false ∧
    (program.concretise text Settings.unforgiving).result.isOk = false ∧
    ((⟨program.uri, program.body, none⟩ : Program).concretise text
      Settings.unforgiving).result.isOk = true := by
  decide +kernel

end Concretion
