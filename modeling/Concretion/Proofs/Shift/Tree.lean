import Concretion.Proofs.Shift.Declarations
import Concretion.Proofs.Shift.Items
import Concretion.Recovery.Program

/-!
# Recoveries that move with the text

The recovery of a tree moves with the text, by induction on the tree: each construct is recovered by
a rule that does so if the parts do.

- `Expr.range_shift`, `ClassDef.isImplicitConstructor_shift` and so on: what rules see of a moved
  tree.
- `Expr.follows`, `Stmt.follows`, `Block.follows`: the recovery of whole constructs.
- `Program.follows_recover`: the recovery of a program.
-/

namespace Concretion

open Recover

/-! ## What is seen of a moved tree -/

section Seen

variable (count : Nat)

/-- The range of a function moves with its parts. -/
theorem FunctionDef.range_shift (definition : FunctionDef) :
    (definition.shift count).range = definition.range.shift count := by
  cases definition
  rfl

/-- The range of a class moves with its parts. -/
theorem ClassDef.range_shift (definition : ClassDef) :
    (definition.shift count).range = definition.range.shift count := by
  obtain ⟨_, _, _, _ | _, _⟩ := definition <;> rfl

/-- The range of an expression moves with its parts. -/
theorem Expr.range_shift (expr : Expr) : (expr.shift count).range = expr.range.shift count := by
  cases expr with
  | functionDef definition => exact definition.range_shift count
  | classDef definition => exact definition.range_shift count
  | _ => rfl

/-- Operators do not move. -/
theorem Expr.operator?_shift (expr : Expr) : (expr.shift count).operator? = expr.operator? := by
  cases expr <;> rfl

/-- The range of a block moves with its statements. -/
theorem Block.range_shift (block : Block) :
    (block.shift count).range = block.range.shift count := by
  cases block
  rfl

/-- The range of a member moves with its key and its value. -/
theorem Member.range_shift (member : Member) :
    (member.shift count).range = member.range.shift count := by
  cases member
  rfl

/-- The range of a statement moves with its parts. -/
theorem Stmt.range_shift (statement : Stmt) :
    (statement.shift count).range = statement.range.shift count := by
  cases statement with
  | binding definition =>
    cases definition
    rfl
  | block body => exact body.range_shift count
  | forLoop loop =>
    cases loop
    rfl
  | _ => rfl

/-- Statements move one by one. -/
theorem shiftStatements_eq (statements : List Stmt) :
    shiftStatements count statements = statements.map (Stmt.shift count) := by
  induction statements with
  | nil => rfl
  | cons statement rest ih => rw [shiftStatements, ih, List.map_cons]

namespace Block

/-- A moved block holds the moved statements. -/
theorem statements_shift (block : Block) :
    (block.shift count).statements = block.statements.map (Stmt.shift count) := by
  obtain ⟨range, kind, statements⟩ := block
  exact shiftStatements_eq count statements

/-- A block starts with its range or with its last statement, and both move. -/
theorem writtenStart_shift (block : Block) :
    (block.shift count).writtenStart = count + block.writtenStart := by
  have hkind : (block.shift count).kind = block.kind := by
    cases block
    rfl
  have hlast :
      (block.shift count).lastStatement? = block.lastStatement?.map (Stmt.shift count) := by
    rw [lastStatement?, statements_shift, List.getLast?_map]
    rfl
  rw [writtenStart, writtenStart, hkind, hlast, range_shift]
  cases block.lastStatement? with
  | none => cases block.kind <;> rfl
  | some statement =>
    cases block.kind with
    | parameter => exact congrArg Range.start (statement.range_shift count)
    | _ => rfl

end Block

/-- The name of a key is its text, which does not move. -/
theorem Member.keyName?_shift (member : Member) :
    (member.shift count).keyName? = member.keyName? := by
  obtain ⟨range, key, value, getter, setter, isStatic, isComputed⟩ := member
  cases key with
  | literal _ value => cases value <;> rfl
  | _ => rfl

/-- Whether a constructor is the default one is seen from names and numbers, not from places. -/
theorem ClassDef.isImplicitConstructor_shift (definition : ClassDef) (member : Member) :
    (definition.shift count).isImplicitConstructor (member.shift count) =
      definition.isImplicitConstructor member := by
  have hkey := member.keyName?_shift count
  have hname : (definition.shift count).name.map (·.name) = definition.name.map (·.name) := by
    obtain ⟨_, _ | _, _, _ | _, _⟩ := definition <;> rfl
  have hheritage : (definition.shift count).heritage = shiftOptional count definition.heritage := by
    obtain ⟨_, _, _, _ | _, _⟩ := definition <;> rfl
  have hvalue : (member.shift count).value = shiftOptional count member.value := by
    cases member
    rfl
  rw [isImplicitConstructor, isImplicitConstructor, hvalue]
  cases member.value with
  | none => rfl
  | some value =>
    cases value with
    | functionDef function =>
      obtain ⟨_, _, _, parameters, body, _, _, _, _⟩ := function
      have hcount : (body.shift count).statements.length = body.statements.length := by
        rw [body.statements_shift, List.length_map]
      simp only [shiftOptional, Expr.shift, FunctionDef.shift, hkey, hname, hcount, hheritage]
      cases definition.heritage with
      | none => simp only [shiftOptional, List.isEmpty_map]
      | some heritage =>
        obtain _ | ⟨parameter, _ | ⟨next, rest⟩⟩ := parameters <;> rfl
    | _ => rfl

/-- A class and its binding move together, so they begin at one place in both texts or in none. -/
theorem Binding.declaresClass_shift (binding : Binding) :
    (binding.shift count).declaresClass = binding.declaresClass := by
  obtain ⟨range, name, init, kind, isFunctionDeclaration⟩ := binding
  cases init with
  | none => rfl
  | some value =>
    cases value with
    | classDef definition =>
      have hname : (definition.shift count).name = definition.name.map (Ident.shift count) := by
        obtain ⟨_, _, _, _ | _, _⟩ := definition <;> rfl
      have hstart : ∀ found : Ident, ((found.shift count).range.start ==
          (name.shift count).range.start) = (found.range.start == name.range.start) := by
        intro found
        simp [Ident.shift, Range.shift]
      simp only [declaresClass, Binding.shift, shiftOptional, Expr.shift, hname, Option.any_map]
      cases definition.name with
      | none => rfl
      | some found => exact congrArg (_ || ·) (hstart found)
    | _ => rfl

end Seen

variable {indent : Indent}

/-! ## Default values

The default value of a parameter lies three levels below the statement that sets it, and it is
recovered on its own. -/

section Defaults

variable (indent)

/-- The recovery of the first branch of a conditional moves with the text. -/
def Expr.BranchFollows : Expr → Prop
  | .conditional _ _ value _ =>
    Recover.Follows indent value.recover (value.shift indent.width).recover
  | _ => True

/-- The recovery of what the expression may set as a default value moves with the text. -/
def Expr.DefaultFollows : Expr → Prop
  | .binary _ _ _ right => right.BranchFollows indent
  | _ => True

/-- The recovery of an expression moves with the text, and so does that of the default value it may
set. -/
structure Expr.Follows (expr : Expr) : Prop where
  builds : Recover.Follows indent expr.recover (expr.shift indent.width).recover
  branch : expr.BranchFollows indent
  default : expr.DefaultFollows indent

end Defaults

/-- Range and operator of a fragment are seen, so only its recovery has to move. -/
theorem Expr.fragmentOf_moved {expr : Expr}
    (h : Recover.Follows indent expr.recover (expr.shift indent.width).recover) :
    (expr.fragmentOf expr.recover).Moved indent
      ((expr.shift indent.width).fragmentOf (expr.shift indent.width).recover) := by
  rw [fragmentOf, fragmentOf, range_shift, operator?_shift]
  exact ⟨h⟩

/-- What is known of an expression is enough for its fragment. -/
theorem Expr.Follows.fragment {expr : Expr} (h : expr.Follows indent) :
    (expr.fragmentOf expr.recover).Moved indent
      ((expr.shift indent.width).fragmentOf (expr.shift indent.width).recover) :=
  Expr.fragmentOf_moved h.builds

/-- A function is a method in both texts or in none. -/
theorem memberValue_function_moved {definition : FunctionDef}
    (h : definition.fragment.Moved indent (definition.shift indent.width).fragment)
    (hvalue : ((Expr.functionDef definition).fragmentOf (Expr.functionDef definition).recover).Moved
      indent ((Expr.functionDef (definition.shift indent.width)).fragmentOf
        (Expr.functionDef (definition.shift indent.width)).recover)) :
    Option.Rel (MemberValue.Moved indent) (memberValue (some (.functionDef definition)))
      (memberValue (some (.functionDef (definition.shift indent.width)))) := by
  have hmethod : (definition.shift indent.width).isMethod = definition.isMethod := by
    cases definition
    rfl
  simp only [memberValue, hmethod]
  split
  · exact .some (.method h)
  · exact .some (.expression hvalue)

/-- Only an expression that sets a default value adds one to the list. -/
theorem initialisers_cons_moved {statement : Stmt} {rest rest' : List Stmt}
    (h : ∀ range expr, statement = .expression range expr → expr.DefaultFollows indent)
    (hrest : List.Forall₂ (Option.Rel (MovedDefault indent)) (initialisers rest)
      (initialisers rest')) :
    List.Forall₂ (Option.Rel (MovedDefault indent)) (initialisers (statement :: rest))
      (initialisers (statement.shift indent.width :: rest')) := by
  cases statement with
  | expression _ expr =>
    have hexpr := h _ _ rfl
    cases expr with
    | binary _ _ left right =>
      cases left with
      | ident name =>
        cases right with
        | conditional _ _ value _ =>
          exact .cons (.some ⟨rfl, Expr.fragmentOf_moved hexpr⟩) hrest
        | _ => exact .cons .none hrest
      | _ => exact .cons .none hrest
    | _ => exact .cons .none hrest
  | _ => exact .cons .none hrest

/-- The range of a block is seen, so only its recovery has to move. -/
theorem Block.fragment_moved {block : Block}
    (h : Follows indent block.recover (block.shift indent.width).recover) :
    BlockFragment.Moved indent ⟨block.range, block.recover⟩
      ⟨(block.shift indent.width).range, (block.shift indent.width).recover⟩ := by
  rw [range_shift]
  exact ⟨h⟩

/-- The range of a statement is seen, so its loop and its recovery have to move. -/
theorem StatementFragment.Moved.of_range {range range' : Range} {isBinding : Bool}
    {loop? loop?' : Option LoopFragment} {build build' : Recover Unit}
    (h : range' = range.shift indent.width)
    (hloop : Option.Rel (LoopFragment.Moved indent) loop? loop?')
    (hbuild : Follows indent build build') :
    StatementFragment.Moved indent ⟨range, isBinding, loop?, build⟩
      ⟨range', isBinding, loop?', build'⟩ := by
  subst h
  exact ⟨hloop, hbuild⟩

/-! ## The induction -/

mutual

/-- By induction on the expression, with the rule of each construct. -/
theorem Expr.follows (expr : Expr) : expr.Follows indent := by
  cases expr with
  | ident name => exact ⟨Rule.follows_ident name, trivial, trivial⟩
  | literal range value => exact ⟨Rule.follows_literal range value, trivial, trivial⟩
  | array range elements =>
    exact ⟨Rule.follows_array range (elementFragments_moved elements), trivial, trivial⟩
  | unary range operator operand =>
    exact ⟨Rule.follows_unary range operator operand.follows.fragment, trivial, trivial⟩
  | binary range operator left right =>
    have hright := right.follows
    refine ⟨?_, trivial, hright.branch⟩
    exact Rule.follows_binary range operator left.follows.fragment hright.fragment
  | conditional range test consequent alternate =>
    have hconsequent := consequent.follows
    refine ⟨?_, hconsequent.builds, trivial⟩
    exact Rule.follows_conditional range test.follows.fragment hconsequent.fragment
      alternate.follows.fragment
  | call range callee arguments =>
    refine ⟨?_, trivial, trivial⟩
    exact Rule.follows_call range callee.follows.fragment (argumentFragments_moved arguments)
  | access range base property =>
    exact ⟨Rule.follows_access range property base.follows.fragment, trivial, trivial⟩
  | index range base index =>
    refine ⟨?_, trivial, trivial⟩
    exact Rule.follows_index range base.follows.fragment index.follows.fragment
  | object range members =>
    exact ⟨Rule.follows_object range (memberBuilds_follow members), trivial, trivial⟩
  | functionDef definition =>
    exact ⟨Rule.follows_functionExpression definition.moved, trivial, trivial⟩
  | classDef definition =>
    exact ⟨Rule.follows_classExpression definition.moved, trivial, trivial⟩
termination_by structural expr

/-- The elements of an array move one by one, holes included. -/
theorem elementFragments_moved (elements : List (Option Expr)) :
    List.Forall₂ (Option.Rel (Fragment.Moved indent)) (elementFragments elements)
      (elementFragments (shiftElements indent.width elements)) := by
  match elements with
  | [] => exact .nil
  | none :: rest => exact .cons .none (elementFragments_moved rest)
  | some element :: rest =>
    exact .cons (.some element.follows.fragment) (elementFragments_moved rest)
termination_by structural elements

/-- Arguments move one by one. -/
theorem argumentFragments_moved (arguments : List Expr) :
    List.Forall₂ (Fragment.Moved indent) (argumentFragments arguments)
      (argumentFragments (shiftArguments indent.width arguments)) := by
  match arguments with
  | [] => exact .nil
  | argument :: rest =>
    exact .cons argument.follows.fragment (argumentFragments_moved rest)
termination_by structural arguments

/-- An expression that is left out is left out in both texts. -/
theorem optionalFragment_moved (expr : Option Expr) :
    Option.Rel (Fragment.Moved indent) (optionalFragment expr)
      (optionalFragment (shiftOptional indent.width expr)) := by
  match expr with
  | none => exact .none
  | some expr => exact .some expr.follows.fragment
termination_by structural expr

/-- Key, value and accessors of a member move. -/
theorem Member.moved (member : Member) :
    member.fragment.Moved indent (member.shift indent.width).fragment := by
  match member with
  | ⟨range, key, value, getter, setter, isStatic, isComputed⟩ =>
    exact ⟨key.follows.fragment, memberValue_moved value, accessorFragment_moved getter,
      accessorFragment_moved setter⟩
termination_by structural member

/-- The value of a member is a method, another expression or nothing. -/
theorem memberValue_moved (value : Option Expr) :
    Option.Rel (MemberValue.Moved indent) (memberValue value)
      (memberValue (shiftOptional indent.width value)) := by
  match value with
  | none => exact .none
  | some value =>
    have hvalue := value.follows.fragment
    cases value with
    | functionDef definition =>
      have hdefinition := definition.moved
      exact memberValue_function_moved hdefinition hvalue
    | _ => exact .some (.expression hvalue)
termination_by structural value

/-- An accessor that is missing is missing in both texts. -/
theorem accessorFragment_moved (accessor : Option FunctionDef) :
    Option.Rel (FunctionFragment.Moved indent) (accessorFragment accessor)
      (accessorFragment (shiftAccessor indent.width accessor)) := by
  match accessor with
  | none => exact .none
  | some definition => exact .some definition.moved
termination_by structural accessor

/-- The members of an object are recovered one by one. -/
theorem memberBuilds_follow (members : List Member) :
    List.Forall₂ (Follows indent) (memberBuilds members)
      (memberBuilds (shiftMembers indent.width members)) := by
  match members with
  | [] => exact .nil
  | member :: rest => exact .cons (Rule.follows_member member.moved) (memberBuilds_follow rest)
termination_by structural members

/-- The elements of a class move one by one, ranges included. -/
theorem elementBuilds_moved (members : List Member) :
    List.Forall₂ (ElementFragment.Moved indent) (elementBuilds members)
      (elementBuilds (shiftMembers indent.width members)) := by
  match members with
  | [] => exact .nil
  | member :: rest =>
    refine .cons ?_ (elementBuilds_moved rest)
    have hbuild := Rule.follows_member member.moved
    rw [member.range_shift]
    exact ⟨hbuild⟩
termination_by structural members

/-- The body of a function moves, and so do the default values of its parameters. -/
theorem FunctionDef.moved (definition : FunctionDef) :
    definition.fragment.Moved indent (definition.shift indent.width).fragment := by
  match definition with
  | ⟨range, name, kind, parameters, body, isAnonymous, isMethod, isDeclared, hasDirectSuper⟩ =>
    have hbody := Block.fragment_moved body.follows
    have hdefaults := body.defaults_moved
    rw [FunctionDef.shift, FunctionDef.fragment, FunctionDef.fragment, body.writtenStart_shift]
    exact ⟨hbody, hdefaults⟩
termination_by structural definition

/-- The elements of a class move, and so does what it extends. -/
theorem ClassDef.moved (definition : ClassDef) :
    definition.fragment.Moved indent (definition.shift indent.width).fragment := by
  match definition with
  | ⟨_, _, heritage, none, elements⟩ =>
    exact ⟨optionalFragment_moved heritage, elementBuilds_moved elements⟩
  | ⟨range, name, heritage, some member, elements⟩ =>
    have hrest := elementBuilds_moved elements
    have hmember := Rule.follows_member member.moved
    have himplicit := ClassDef.isImplicitConstructor_shift indent.width
      ⟨range, name, heritage, some member, elements⟩ member
    have hrange := member.range_shift indent.width
    simp only [ClassDef.shift] at himplicit
    simp only [ClassDef.shift, ClassDef.fragment, himplicit, hrange]
    constructor
    · exact optionalFragment_moved heritage
    · split
      · exact hrest
      · exact .cons ⟨hmember⟩ hrest
termination_by structural definition

/-- The recovery of a block moves, as those of its statements do. -/
theorem Block.follows (block : Block) :
    Follows indent block.recover (block.shift indent.width).recover := by
  match block with
  | ⟨range, kind, statements⟩ =>
    exact Rule.follows_block range kind (statementFragments_moved statements)
termination_by structural block

/-- The default values that the statements of a block set move with it. -/
theorem Block.defaults_moved (block : Block) :
    List.Forall₂ (MovedDefault indent) block.defaults (block.shift indent.width).defaults := by
  match block with
  | ⟨_, .parameter, statements⟩ =>
    have hmoved := initialisers_moved statements
    have hfront : List.Forall₂ (Option.Rel (MovedDefault indent)) (initialisers statements).dropLast
        (initialisers (shiftStatements indent.width statements)).dropLast := by
      rw [List.dropLast_eq_take, List.dropLast_eq_take, hmoved.length_eq]
      exact List.forall₂_take _ hmoved
    exact List.rel_filterMap (fun _ _ h => h) hfront
  | ⟨_, .braced, _⟩ => exact .nil
  | ⟨_, .synthetic, _⟩ => exact .nil
termination_by structural block

/-- What statements set as default values moves with them. -/
theorem initialisers_moved (statements : List Stmt) :
    List.Forall₂ (Option.Rel (MovedDefault indent)) (initialisers statements)
      (initialisers (shiftStatements indent.width statements)) := by
  match statements with
  | [] => exact .nil
  | statement :: rest =>
    refine initialisers_cons_moved ?_ (initialisers_moved rest)
    cases statement with
    | expression _ expr =>
      have hexpr := expr.follows
      rintro _ _ ⟨⟩
      exact hexpr.default
    | _ => rintro _ _ ⟨⟩
termination_by structural statements

/-- The statements of a block move one by one. -/
theorem statementFragments_moved (statements : List Stmt) :
    List.Forall₂ (StatementFragment.Moved indent) (statementFragments statements)
      (statementFragments (shiftStatements indent.width statements)) := by
  match statements with
  | [] => exact .nil
  | statement :: rest =>
    have hbuild := statement.follows
    have hrest := statementFragments_moved rest
    have hrange := statement.range_shift indent.width
    cases statement with
    | forLoop loop => exact .cons (.of_range hrange (.some loop.moved) hbuild) hrest
    | _ => exact .cons (.of_range hrange .none hbuild) hrest
termination_by structural statements

/-- A branch that is left out is left out in both texts. -/
theorem optionalBlock_moved (block : Option Block) :
    Option.Rel (BlockFragment.Moved indent) (optionalBlock block)
      (optionalBlock (shiftBlock indent.width block)) := by
  match block with
  | none => exact .none
  | some block => exact .some (Block.fragment_moved block.follows)
termination_by structural block

/-- By cases of the statement, with the rule of each. -/
theorem Stmt.follows (statement : Stmt) :
    Follows indent statement.recover (statement.shift indent.width).recover := by
  match statement with
  | .binding definition => exact definition.follows
  | .expression _ expr => exact Rule.follows_expressionStatement expr.follows.fragment
  | .block body => exact body.follows
  | .empty range => exact Rule.follows_emptyStatement range
  | .ifElse range test pass fail =>
    exact Rule.follows_ifElse range test.follows.fragment
      (Block.fragment_moved pass.follows) (optionalBlock_moved fail)
  | .forLoop loop => exact Rule.follows_forLoop loop.moved none
  | .whileLoop range isDo test body =>
    have htest := test.follows.fragment
    have hbody := Block.fragment_moved body.follows
    exact .ite Iff.rfl (fun _ => Rule.follows_doLoop range htest hbody)
      fun _ => Rule.follows_whileLoop range htest hbody
  | .switch range subject cases =>
    exact Rule.follows_switch range subject.follows.fragment (caseBuilds_moved cases)
  | .tryCatch range body catches finalizer =>
    exact Rule.follows_tryCatch range (Block.fragment_moved body.follows)
      (catchBuilds_follow catches) (optionalBlock_moved finalizer)
  | .throwValue range value =>
    exact Rule.follows_throwStatement range value.follows.fragment
  | .returnValue range value isGenerated =>
    exact Rule.follows_returnStatement range isGenerated (optionalFragment_moved value)
  | .jump range kind label => exact Rule.follows_jump range kind label
  | .labelled range label body =>
    exact Rule.follows_labelled range label (Block.fragment_moved body.follows)
  | .withScope range subject body =>
    exact Rule.follows_withScope range subject.follows.fragment
      (Block.fragment_moved body.follows)
termination_by structural statement

/-- A variable moves with its initial value. -/
theorem Binding.follows (binding : Binding) :
    Follows indent binding.recover (binding.shift indent.width).recover := by
  match binding with
  | ⟨range, name, none, kind, isFunctionDeclaration⟩ => exact Rule.follows_binding ⟨.none⟩
  | ⟨range, name, some value, kind, isFunctionDeclaration⟩ =>
    have hinit : Option.Rel (Fragment.Moved indent) (some (value.fragmentOf value.recover))
        (some ((value.shift indent.width).fragmentOf (value.shift indent.width).recover)) :=
      .some value.follows.fragment
    cases value with
    | classDef definition =>
      have hdefinition := definition.moved
      have hdeclares := Binding.declaresClass_shift indent.width
        ⟨range, name, some (.classDef definition), kind, isFunctionDeclaration⟩
      refine .ite (by rw [← hdeclares]; rfl) (fun _ => ?_) fun _ => ?_
      · exact Rule.follows_classDeclaration name hdefinition
      · exact Rule.follows_binding ⟨hinit⟩
    | _ => exact Rule.follows_binding ⟨hinit⟩
termination_by structural binding

/-- The header of a loop moves, and so does its body. -/
theorem ForLoop.moved (loop : ForLoop) :
    loop.fragment.Moved indent (loop.shift indent.width).fragment := by
  match loop with
  | ⟨_, _, init, test, update, body⟩ =>
    exact ⟨optionalFragment_moved init, optionalFragment_moved test, optionalFragment_moved update,
      Block.fragment_moved body.follows⟩
termination_by structural loop

/-- The clauses of a switch move one by one. -/
theorem caseBuilds_moved (cases : List SwitchCase) :
    List.Forall₂ (Rule.MovedCase indent) (caseBuilds cases)
      (caseBuilds (shiftCases indent.width cases)) := by
  match cases with
  | [] => exact .nil
  | clause :: rest =>
    refine .cons ⟨?_, clause.follows⟩ (caseBuilds_moved rest)
    cases clause
    rfl
termination_by structural cases

/-- A clause moves with its test and its statements. -/
theorem SwitchCase.follows (clause : SwitchCase) :
    Follows indent clause.recover (clause.shift indent.width).recover := by
  match clause with
  | ⟨range, test, statements⟩ =>
    exact Rule.follows_switchCase range (optionalFragment_moved test)
      (statementFragments_moved statements)
termination_by structural clause

/-- Handlers move one by one. -/
theorem catchBuilds_follow (catches : List CatchClause) :
    List.Forall₂ (Follows indent) (catchBuilds catches)
      (catchBuilds (shiftCatches indent.width catches)) := by
  match catches with
  | [] => exact .nil
  | ⟨range, exception, body⟩ :: rest =>
    refine .cons ?_ (catchBuilds_follow rest)
    exact Rule.follows_catchClause range exception (Block.fragment_moved body.follows)
termination_by structural catches

end

/-! ## Programs -/

/-- The recovery of a program moves, as those of its module and its body do. -/
theorem Program.follows_recover (program : Program) :
    Follows indent program.recover (program.shift indent.width).recover := by
  obtain ⟨uri, body, info⟩ := program
  refine (Follows.note _ _).andThen (body.follows.andThen ?_)
  cases info with
  | none => exact .pure trivial
  | some info => exact Rule.follows_moduleItems info

end Concretion
