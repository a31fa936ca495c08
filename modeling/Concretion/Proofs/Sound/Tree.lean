import Concretion.Proofs.Sound.Rules
import Concretion.Recovery.Program

/-!
# Soundness of the recovery of trees

The recovery of every abstract tree is sound, by induction on the tree: each construct is
recovered by a rule, and the rules are sound if the parts are.

- `Expr.Sound`: what the induction carries for an expression.
- `Expr.sound`, `Stmt.sound`, `Block.sound`: the recovery of whole constructs.
- `Program.sound_recover`: the recovery of a program.
-/

namespace Concretion

open Recover

variable (orderly : Prop)

/-! ## Default values

The default value of a parameter lies three levels below the statement that sets it: it is the first
branch of the conditional on the right of an assignment. The induction takes it along, since it is
recovered on its own. -/

/-- The recovery of the first branch of a conditional is sound. -/
def Expr.BranchSound : Expr → Prop
  | .conditional _ _ value _ => Builds orderly false value.recover
  | _ => True

/-- The recovery of what the expression may set as a default value is sound. -/
def Expr.DefaultSound : Expr → Prop
  | .binary _ _ _ right => right.BranchSound orderly
  | _ => True

/-- The recovery of an expression is sound, and so is that of the default value it may set. -/
structure Expr.Sound (expr : Expr) : Prop where
  builds : Builds orderly false expr.recover
  branch : expr.BranchSound orderly
  default : expr.DefaultSound orderly

theorem initialisers_cons_sound {statement : Stmt} {rest : List Stmt}
    (h : ∀ range expr, statement = .expression range expr → expr.DefaultSound orderly)
    (hrest : ∀ found ∈ initialisers rest, ∀ value ∈ found, value.2.Sound orderly) :
    ∀ found ∈ initialisers (statement :: rest), ∀ value ∈ found, value.2.Sound orderly :=
  forall_initialisers_cons (fun _ _ _ _ _ _ _ _ hset => h _ _ hset) hrest

/-! ## The induction -/

mutual

theorem Expr.sound (expr : Expr) : expr.Sound orderly :=
  match expr with
  | .ident name => ⟨Rule.sound_ident name, trivial, trivial⟩
  | .literal range value => ⟨Rule.sound_literal range value, trivial, trivial⟩
  | .array range elements =>
    ⟨Rule.sound_array range (elementFragments_sound elements), trivial, trivial⟩
  | .unary range operator operand =>
    ⟨Rule.sound_unary range operator operand.sound.builds, trivial, trivial⟩
  | .binary range operator left right =>
    ⟨Rule.sound_binary range operator left.sound.builds right.sound.builds, trivial,
      right.sound.branch⟩
  | .conditional range test consequent alternate =>
    ⟨Rule.sound_conditional range test.sound.builds consequent.sound.builds
      alternate.sound.builds, consequent.sound.builds, trivial⟩
  | .call range callee arguments =>
    ⟨Rule.sound_call range callee.sound.builds (argumentFragments_sound arguments), trivial,
      trivial⟩
  | .access range base property =>
    ⟨Rule.sound_access range property base.sound.builds, trivial, trivial⟩
  | .index range base index =>
    ⟨Rule.sound_index range base.sound.builds index.sound.builds, trivial, trivial⟩
  | .object range members =>
    ⟨Rule.sound_object range (memberBuilds_sound members), trivial, trivial⟩
  | .functionDef definition => ⟨Rule.sound_functionExpression definition.sound, trivial, trivial⟩
  | .classDef definition => ⟨Rule.sound_classExpression definition.sound, trivial, trivial⟩
termination_by structural expr

theorem elementFragments_sound (elements : List (Option Expr)) :
    ∀ element ∈ elementFragments elements, ∀ part ∈ element, part.Sound orderly :=
  match elements with
  | [] => List.forall_mem_nil _
  | none :: rest =>
    List.forall_mem_cons.2 ⟨fun _ hnone => (by cases hnone), elementFragments_sound rest⟩
  | some element :: rest =>
    List.forall_mem_cons.2
      ⟨fun _ hpart => Option.some.inj hpart ▸ element.sound.builds, elementFragments_sound rest⟩
termination_by structural elements

theorem argumentFragments_sound (arguments : List Expr) :
    ∀ argument ∈ argumentFragments arguments, argument.Sound orderly :=
  match arguments with
  | [] => List.forall_mem_nil _
  | argument :: rest => List.forall_mem_cons.2 ⟨argument.sound.builds, argumentFragments_sound rest⟩
termination_by structural arguments

theorem optionalFragment_sound (expr : Option Expr) :
    ∀ part ∈ optionalFragment expr, part.Sound orderly :=
  match expr with
  | none => fun _ hnone => by cases hnone
  | some expr => fun _ hpart => Option.some.inj hpart ▸ expr.sound.builds
termination_by structural expr

theorem Member.sound (member : Member) : member.fragment.Sound orderly :=
  match member with
  | ⟨_, key, value, getter, setter, _, _⟩ =>
    { key := key.sound.builds
      value := memberValue_sound value
      getter := accessorFragment_sound getter
      setter := accessorFragment_sound setter }
termination_by structural member

theorem memberValue_sound (value : Option Expr) :
    ∀ part ∈ memberValue value, part.Sound orderly :=
  match value with
  | none => fun _ hnone => by cases hnone
  | some value => by
    have hvalue := value.sound.builds
    cases value with
    | functionDef definition => exact forall_memberValue_function definition.sound hvalue
    | _ =>
      intro part hpart
      cases hpart
      exact hvalue
termination_by structural value

theorem accessorFragment_sound (accessor : Option FunctionDef) :
    ∀ function ∈ accessorFragment accessor, function.Sound orderly :=
  match accessor with
  | none => fun _ hnone => by cases hnone
  | some definition => fun _ hpart => Option.some.inj hpart ▸ definition.sound
termination_by structural accessor

theorem memberBuilds_sound (members : List Member) :
    ∀ build ∈ memberBuilds members, Builds orderly false build :=
  match members with
  | [] => List.forall_mem_nil _
  | member :: rest =>
    List.forall_mem_cons.2 ⟨Rule.sound_member member.sound, memberBuilds_sound rest⟩
termination_by structural members

theorem elementBuilds_sound (members : List Member) :
    ∀ element ∈ elementBuilds members, Builds orderly false element.build :=
  match members with
  | [] => List.forall_mem_nil _
  | member :: rest =>
    List.forall_mem_cons.2 ⟨Rule.sound_member member.sound, elementBuilds_sound rest⟩
termination_by structural members

theorem FunctionDef.sound (definition : FunctionDef) : definition.fragment.Sound orderly :=
  match definition with
  | ⟨_, _, _, _, body, _, _, _, _⟩ => { body := body.sound, defaults := body.defaults_sound }
termination_by structural definition

theorem ClassDef.sound (definition : ClassDef) : definition.fragment.Sound orderly :=
  match definition with
  | ⟨_, _, heritage, none, elements⟩ =>
    { heritage := optionalFragment_sound heritage
      elements := elementBuilds_sound elements }
  | ⟨range, name, heritage, some member, elements⟩ =>
    { heritage := optionalFragment_sound heritage
      elements := by
        have hmember : Builds orderly false (Rule.member member.fragment) :=
          Rule.sound_member member.sound
        have helements := elementBuilds_sound elements
        simp only [ClassDef.fragment]
        split
        · exact helements
        · exact List.forall_mem_cons.2 ⟨hmember, helements⟩ }
termination_by structural definition

theorem Block.sound (block : Block) : Builds orderly false block.recover :=
  match block with
  | ⟨range, kind, statements⟩ => Rule.sound_block range kind (statementFragments_sound statements)
termination_by structural block

theorem Block.defaults_sound (block : Block) :
    ∀ value ∈ block.defaults, value.2.Sound orderly :=
  match block with
  | ⟨_, .parameter, statements⟩ => fun value hvalue => by
    have hsound := initialisers_sound statements
    obtain ⟨found, hfound, heq⟩ := List.mem_filterMap.1 hvalue
    exact hsound found (List.dropLast_subset _ hfound) value heq
  | ⟨_, .braced, _⟩ => List.forall_mem_nil _
  | ⟨_, .synthetic, _⟩ => List.forall_mem_nil _
termination_by structural block

theorem initialisers_sound (statements : List Stmt) :
    ∀ found ∈ initialisers statements, ∀ value ∈ found, value.2.Sound orderly :=
  match statements with
  | [] => List.forall_mem_nil _
  | statement :: rest => by
    have hrest := initialisers_sound rest
    cases statement with
    | expression _ expr =>
      have hexpr := expr.sound
      exact initialisers_cons_sound orderly (fun _ _ heq => by cases heq; exact hexpr.default) hrest
    | _ => exact initialisers_cons_sound orderly (fun _ _ heq => by cases heq) hrest
termination_by structural statements

theorem statementFragments_sound (statements : List Stmt) :
    ∀ statement ∈ statementFragments statements, statement.Sound orderly :=
  match statements with
  | [] => List.forall_mem_nil _
  | statement :: rest => by
    have hrest := statementFragments_sound rest
    have hbuild := statement.sound
    cases statement with
    | forLoop loop =>
      have hloop := loop.sound
      refine List.forall_mem_cons.2 ⟨⟨hbuild, fun found hfound => ?_⟩, hrest⟩
      cases hfound
      exact hloop
    | _ => exact List.forall_mem_cons.2 ⟨⟨hbuild, fun _ hnone => by cases hnone⟩, hrest⟩
termination_by structural statements

theorem optionalBlock_sound (block : Option Block) :
    ∀ part ∈ optionalBlock block, part.Sound orderly :=
  match block with
  | none => fun _ hnone => by cases hnone
  | some block => fun _ hpart => Option.some.inj hpart ▸ block.sound
termination_by structural block

theorem Stmt.sound (statement : Stmt) : Builds orderly false statement.recover :=
  match statement with
  | .binding definition => definition.sound
  | .expression _ expr => Rule.sound_expressionStatement expr.sound.builds
  | .block body => body.sound
  | .empty range => Rule.sound_emptyStatement range
  | .ifElse range test pass fail =>
    Rule.sound_ifElse range test.sound.builds pass.sound (optionalBlock_sound fail)
  | .forLoop loop => Rule.sound_forLoop loop.sound fun _ _ hnone => by cases hnone
  | .whileLoop range isDo test body => by
    have htest := test.sound.builds
    have hbody := body.sound
    simp only [Stmt.recover]
    split
    · exact Rule.sound_doLoop range htest hbody
    · exact Rule.sound_whileLoop range htest hbody
  | .switch range subject cases =>
      Rule.sound_switch range subject.sound.builds (caseBuilds_sound cases)
  | .tryCatch range body catches finalizer =>
    Rule.sound_tryCatch range body.sound (catchBuilds_sound catches)
      (optionalBlock_sound finalizer)
  | .throwValue range value => Rule.sound_throwStatement range value.sound.builds
  | .returnValue range value isGenerated =>
    Rule.sound_returnStatement range isGenerated (optionalFragment_sound value)
  | .jump range kind label => Rule.sound_jump range kind label
  | .labelled range label body => Rule.sound_labelled range label body.sound
  | .withScope range subject body => Rule.sound_withScope range subject.sound.builds body.sound
termination_by structural statement

theorem Binding.sound (binding : Binding) : Builds orderly false binding.recover :=
  match binding with
  | ⟨range, name, none, kind, isFunctionDeclaration⟩ =>
    Rule.sound_binding fun _ hnone => by cases hnone
  | ⟨range, name, some value, kind, isFunctionDeclaration⟩ => by
    have hvalue := value.sound.builds
    have hinit : ∀ part ∈ some (value.fragmentOf value.recover), part.Sound orderly := by
      intro part hpart
      cases hpart
      exact hvalue
    cases value with
    | classDef definition =>
      have hdefinition := definition.sound
      simp only [Binding.recover]
      split
      · exact Rule.sound_classDeclaration name hdefinition
      · exact Rule.sound_binding hinit
    | _ => exact Rule.sound_binding hinit
termination_by structural binding

theorem ForLoop.sound (loop : ForLoop) : loop.fragment.Sound orderly :=
  match loop with
  | ⟨_, _, init, test, update, body⟩ =>
    { init := optionalFragment_sound init
      test := optionalFragment_sound test
      update := optionalFragment_sound update
      body := body.sound }
termination_by structural loop

theorem caseBuilds_sound (cases : List SwitchCase) :
    ∀ clause ∈ caseBuilds cases, Builds orderly false clause.2 :=
  match cases with
  | [] => List.forall_mem_nil _
  | clause :: rest => List.forall_mem_cons.2 ⟨clause.sound, caseBuilds_sound rest⟩
termination_by structural cases

theorem SwitchCase.sound (clause : SwitchCase) : Builds orderly false clause.recover :=
  match clause with
  | ⟨_, test, statements⟩ =>
    Rule.sound_switchCase (optionalFragment_sound test) (statementFragments_sound statements)
termination_by structural clause

theorem catchBuilds_sound (catches : List CatchClause) :
    ∀ build ∈ catchBuilds catches, Builds orderly false build :=
  match catches with
  | [] => List.forall_mem_nil _
  | ⟨range, exception, body⟩ :: rest =>
    List.forall_mem_cons.2
      ⟨Rule.sound_catchClause range exception body.sound, catchBuilds_sound rest⟩
termination_by structural catches

end

/-! ## Programs -/

theorem Program.sound_recover (program : Program) : Builds orderly true program.recover := by
  refine (Sound.note rfl).andThen ((program.body.sound orderly).relax.andThen ?_)
  split
  · exact Rule.sound_moduleItems _
  · exact .pure fun _ => trivial

end Concretion
