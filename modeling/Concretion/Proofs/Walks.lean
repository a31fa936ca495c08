import Concretion.Abstract.Visit

/-!
# Walks as lists of announcements

A walk over an abstract tree does nothing but announce. For every tree there is a list of
announcements, the same one for all visitors and for all their effects, and to walk over the tree is
to go through that list. So whatever a visitor does at an announcement, such as to fail, it does to
the walk as a whole.

- `Walk.IsSequence`: a walk that goes through a list of announcements, in every monad.
- `Block.isSequence_walk`: every walk over a block is one, by induction on the tree.
- `Recording.run_forM_keep`: what a visitor with a limit keeps of a list of announcements.
-/

namespace Concretion

namespace Walk

/-! ## Sequences of announcements -/

/-- The walk goes through a list of announcements, which does not depend on the visitor. -/
def IsSequence (walk : (m : Type → Type) → [Monad m] → (Visit → m Unit) → m Unit) : Prop :=
  ∃ visits : List Visit, ∀ (m : Type → Type) [Monad m] [LawfulMonad m] (visit : Visit → m Unit),
    walk m visit = visits.forM visit

namespace IsSequence

variable {first second : (m : Type → Type) → [Monad m] → (Visit → m Unit) → m Unit}

/-- Nothing is announced by a walk that does nothing. -/
theorem nothing : IsSequence fun _ _ _ => pure () :=
  ⟨[], fun _ _ _ _ => rfl⟩

/-- A single announcement is a list of one. -/
theorem announce (announced : Visit) : IsSequence fun _ _ visit => visit announced :=
  ⟨[announced], fun _ _ _ _ => bind_pure_unit.symm⟩

/-- Two walks go through both lists, one after the other. -/
theorem andThen (hfirst : IsSequence first) (hsecond : IsSequence second) :
    IsSequence fun m _ visit => first m visit >>= fun _ => second m visit := by
  obtain ⟨before, hbefore⟩ := hfirst
  obtain ⟨after, hafter⟩ := hsecond
  refine ⟨before ++ after, fun m _ _ visit => ?_⟩
  show first m visit >>= (fun _ => second m visit) = _
  rw [hbefore, hafter]
  exact List.forM_append.symm

/-- Something is announced before the rest of the walk. -/
theorem announced (h : IsSequence second) (announced : Visit) :
    IsSequence fun m _ visit => visit announced >>= fun _ => second m visit :=
  (announce announced).andThen h

/-- Something is announced as such and then for what it is, before the rest of the walk. -/
theorem announcedTwice (announced again : Visit) (h : IsSequence second) :
    IsSequence fun m _ visit => visit announced >>= fun _ => visit again >>= fun _ =>
      second m visit :=
  (h.announced again).announced announced

/-- One thing of each item is announced, in the order of the list. -/
theorem forM {α : Type} (step : α → Visit) (items : List α) :
    IsSequence fun _ _ visit => items.forM fun item => visit (step item) := by
  induction items with
  | nil => exact nothing
  | cons item rest ih => exact ih.announced (step item)

end IsSequence

end Walk

/-! ## Walks over trees -/

open Walk

section Tree

variable (withParameters : Bool)

mutual

/-- By induction on the expression: it is announced in front of its parts. -/
theorem Expr.isSequence_walk (expr : Expr) :
    IsSequence fun _ _ visit => expr.walk visit withParameters := by
  match expr with
  | .ident name => exact (IsSequence.announce _).announced _
  | .literal range value => exact (IsSequence.announce _).announced _
  | .array range elements => exact .announcedTwice _ _ (Walk.isSequence_elements elements)
  | .unary range operator operand => exact .announcedTwice _ _ (Expr.isSequence_walk operand)
  | .binary range operator left right =>
    have hleft := Expr.isSequence_walk left
    exact .announcedTwice _ _ (hleft.andThen (Expr.isSequence_walk right))
  | .conditional range test consequent alternate =>
    have htest := Expr.isSequence_walk test
    have hconsequent := Expr.isSequence_walk consequent
    have halternate := Expr.isSequence_walk alternate
    exact .announcedTwice _ _ (htest.andThen (hconsequent.andThen halternate))
  | .call range callee arguments =>
    have hcallee := Expr.isSequence_walk callee
    exact .announcedTwice _ _ (hcallee.andThen (Walk.isSequence_arguments arguments))
  | .access range base property => exact .announcedTwice _ _ (Expr.isSequence_walk base)
  | .index range base index =>
    have hbase := Expr.isSequence_walk base
    exact .announcedTwice _ _ (hbase.andThen (Expr.isSequence_walk index))
  | .object range members => exact .announcedTwice _ _ (Walk.isSequence_members members)
  | .functionDef definition => exact (FunctionDef.isSequence_walk definition).announced _
  | .classDef definition => exact (ClassDef.isSequence_walk definition).announced _
termination_by structural expr

/-- Elements are walked over one by one, and holes announce nothing. -/
theorem Walk.isSequence_elements (elements : List (Option Expr)) :
    IsSequence fun _ _ visit => Walk.elements visit withParameters elements := by
  match elements with
  | [] => exact .nothing
  | none :: rest => exact Walk.isSequence_elements rest
  | some element :: rest =>
    exact (Expr.isSequence_walk element).andThen (Walk.isSequence_elements rest)
termination_by structural elements

/-- Arguments are walked over one by one. -/
theorem Walk.isSequence_arguments (arguments : List Expr) :
    IsSequence fun _ _ visit => Walk.arguments visit withParameters arguments := by
  match arguments with
  | [] => exact .nothing
  | argument :: rest =>
    exact (Expr.isSequence_walk argument).andThen (Walk.isSequence_arguments rest)
termination_by structural arguments

/-- What is left out announces nothing. -/
theorem Walk.isSequence_optional (expr : Option Expr) :
    IsSequence fun _ _ visit => Walk.optional visit withParameters expr := by
  match expr with
  | none => exact .nothing
  | some expr => exact Expr.isSequence_walk expr
termination_by structural expr

/-- A property is announced in front of its key, value and accessors. -/
theorem Member.isSequence_walk (property : Member) :
    IsSequence fun _ _ visit => property.walk visit withParameters := by
  match property with
  | ⟨range, key, value, getter, setter, isStatic, isComputed⟩ =>
    have hkey := Expr.isSequence_walk key
    have hvalue := Walk.isSequence_optional value
    have hgetter := Walk.isSequence_accessor getter
    have hsetter := Walk.isSequence_accessor setter
    exact (hkey.andThen (hvalue.andThen (hgetter.andThen hsetter))).announced _
termination_by structural property

/-- Members are walked over one by one. -/
theorem Walk.isSequence_members (members : List Member) :
    IsSequence fun _ _ visit => Walk.members visit withParameters members := by
  match members with
  | [] => exact .nothing
  | member :: rest =>
    exact (Member.isSequence_walk member).andThen (Walk.isSequence_members rest)
termination_by structural members

/-- An accessor that is missing announces nothing. -/
theorem Walk.isSequence_accessor (accessor : Option FunctionDef) :
    IsSequence fun _ _ visit => Walk.accessor visit withParameters accessor := by
  match accessor with
  | none => exact .nothing
  | some definition => exact FunctionDef.isSequence_walk definition
termination_by structural accessor

/-- Parameters are announced in front of the body, if they are asked for. -/
theorem FunctionDef.isSequence_walk (definition : FunctionDef) :
    IsSequence fun _ _ visit => definition.walk visit withParameters := by
  match definition with
  | ⟨range, name, kind, parameters, body, isAnonymous, isMethod, isDeclared, hasDirectSuper⟩ =>
    have hbody := Block.isSequence_walk body
    cases withParameters with
    | false => exact hbody.announced _
    | true => exact ((IsSequence.forM .ident parameters).andThen hbody).announced _
termination_by structural definition

/-- Heritage and constructor come in front of the elements. -/
theorem ClassDef.isSequence_walk (definition : ClassDef) :
    IsSequence fun _ _ visit => definition.walk visit withParameters := by
  match definition with
  | ⟨range, name, heritage, constructor?, elements⟩ =>
    have hheritage := Walk.isSequence_optional heritage
    have hconstructor := Walk.isSequence_constructor constructor?
    have helements := Walk.isSequence_members elements
    exact (hheritage.andThen (hconstructor.andThen helements)).announced _
termination_by structural definition

/-- A constructor that is missing announces nothing. -/
theorem Walk.isSequence_constructor (constructor? : Option Member) :
    IsSequence fun _ _ visit => Walk.constructor visit withParameters constructor? := by
  match constructor? with
  | none => exact .nothing
  | some member => exact Member.isSequence_walk member
termination_by structural constructor?

/-- A walk over a block goes through a list of announcements. -/
theorem Block.isSequence_walk (block : Block) :
    IsSequence fun _ _ visit => block.walk visit withParameters := by
  match block with
  | ⟨range, kind, statements⟩ => exact (Walk.isSequence_statements statements).announced _
termination_by structural block

/-- Statements are walked over one by one. -/
theorem Walk.isSequence_statements (statements : List Stmt) :
    IsSequence fun _ _ visit => Walk.statements visit withParameters statements := by
  match statements with
  | [] => exact .nothing
  | statement :: rest =>
    exact (Stmt.isSequence_walk statement).andThen (Walk.isSequence_statements rest)
termination_by structural statements

/-- A branch that is left out announces nothing. -/
theorem Walk.isSequence_optionalBlock (block : Option Block) :
    IsSequence fun _ _ visit => Walk.optionalBlock visit withParameters block := by
  match block with
  | none => exact .nothing
  | some block => exact Block.isSequence_walk block
termination_by structural block

/-- By cases of the statement: it is announced in front of its parts. -/
theorem Stmt.isSequence_walk (statement : Stmt) :
    IsSequence fun _ _ visit => statement.walk visit withParameters := by
  match statement with
  | .binding definition => exact .announcedTwice _ _ (Binding.isSequence_walk definition)
  | .expression range expr => exact .announcedTwice _ _ (Expr.isSequence_walk expr)
  | .block body => exact (Block.isSequence_walk body).announced _
  | .empty range => exact (IsSequence.announce _).announced _
  | .ifElse range test pass fail =>
    have htest := Expr.isSequence_walk test
    have hpass := Block.isSequence_walk pass
    exact .announcedTwice _ _ (htest.andThen (hpass.andThen (Walk.isSequence_optionalBlock fail)))
  | .forLoop loop => exact .announcedTwice _ _ (ForLoop.isSequence_walk loop)
  | .whileLoop range isDo test body =>
    have htest := Expr.isSequence_walk test
    have hbody := Block.isSequence_walk body
    cases isDo with
    | false => exact .announcedTwice _ _ (htest.andThen hbody)
    | true => exact .announcedTwice _ _ (hbody.andThen htest)
  | .switch range subject cases =>
    have hsubject := Expr.isSequence_walk subject
    exact .announcedTwice _ _ (hsubject.andThen (Walk.isSequence_cases cases))
  | .tryCatch range body catches finalizer =>
    have hfinalizer := Walk.isSequence_optionalBlock finalizer
    have hbody := Block.isSequence_walk body
    have hcatches := Walk.isSequence_catches catches
    exact .announcedTwice _ _ (hfinalizer.andThen (hbody.andThen hcatches))
  | .throwValue range value => exact .announcedTwice _ _ (Expr.isSequence_walk value)
  | .returnValue range value isGenerated =>
    exact .announcedTwice _ _ (Walk.isSequence_optional value)
  | .jump range kind label => exact (IsSequence.announce _).announced _
  | .labelled range label body => exact .announcedTwice _ _ (Block.isSequence_walk body)
  | .withScope range subject body =>
    have hsubject := Expr.isSequence_walk subject
    exact .announcedTwice _ _ (hsubject.andThen (Block.isSequence_walk body))
termination_by structural statement

/-- A binding is announced behind its initial value. -/
theorem Binding.isSequence_walk (binding : Binding) :
    IsSequence fun _ _ visit => binding.walk visit withParameters := by
  match binding with
  | ⟨range, name, init, kind, isFunctionDeclaration⟩ =>
    exact (Walk.isSequence_optional init).andThen (.announce _)
termination_by structural binding

/-- The clauses of the header come in front of the body. -/
theorem ForLoop.isSequence_walk (loop : ForLoop) :
    IsSequence fun _ _ visit => loop.walk visit withParameters := by
  match loop with
  | ⟨range, kind, init, test, update, body⟩ =>
    have hinit := Walk.isSequence_optional init
    have htest := Walk.isSequence_optional test
    have hupdate := Walk.isSequence_optional update
    exact hinit.andThen (htest.andThen (hupdate.andThen (Block.isSequence_walk body)))
termination_by structural loop

/-- Clauses are walked over one by one. -/
theorem Walk.isSequence_cases (cases : List SwitchCase) :
    IsSequence fun _ _ visit => Walk.cases visit withParameters cases := by
  match cases with
  | [] => exact .nothing
  | clause :: rest =>
    exact (SwitchCase.isSequence_walk clause).andThen (Walk.isSequence_cases rest)
termination_by structural cases

/-- The test of a clause comes in front of its statements. -/
theorem SwitchCase.isSequence_walk (clause : SwitchCase) :
    IsSequence fun _ _ visit => clause.walk visit withParameters := by
  match clause with
  | ⟨range, test, statements⟩ =>
    have htest := Walk.isSequence_optional test
    exact (htest.andThen (Walk.isSequence_statements statements)).announced _
termination_by structural clause

/-- Handlers are walked over one by one. -/
theorem Walk.isSequence_catches (catches : List CatchClause) :
    IsSequence fun _ _ visit => Walk.catches visit withParameters catches := by
  match catches with
  | [] => exact .nothing
  | clause :: rest =>
    exact (CatchClause.isSequence_walk clause).andThen (Walk.isSequence_catches rest)
termination_by structural catches

/-- A handler is announced in front of its body. -/
theorem CatchClause.isSequence_walk (clause : CatchClause) :
    IsSequence fun _ _ visit => clause.walk visit withParameters := by
  match clause with
  | ⟨range, exception, body⟩ => exact .announcedTwice _ _ (Block.isSequence_walk body)
termination_by structural clause

end

end Tree

/-! ## What is kept of a walk -/

namespace Recording

variable {wanted : Visit → Bool} {limit : Option Nat} {visit : Visit} {kept : Array Visit}

/-- What comes of a list of announcements: whether the visitor comes to its end, and what it has
kept. -/
def ofVisits (wanted : Visit → Bool) (limit : Option Nat) (visits : List Visit)
    (kept : Array Visit) : Except Unit Unit × Array Visit :=
  (visits.forM (keep wanted limit)).run kept

/-- The rest of the list is gone through if the first announcement does not fail. -/
theorem ofVisits_cons (rest : List Visit) :
    ofVisits wanted limit (visit :: rest) kept =
      match (keep wanted limit visit).run kept with
      | (.ok (), later) => ofVisits wanted limit rest later
      | (.error (), later) => (.error (), later) := by
  show ((keep wanted limit visit) >>= fun _ => rest.forM (keep wanted limit)).run kept = _
  rcases h : (keep wanted limit visit).run kept with ⟨_ | _, later⟩ <;>
    change keep wanted limit visit kept = _ at h <;>
    simp only [ExceptT.run, bind, ExceptT.bind, ExceptT.mk, StateT.bind, h] <;> rfl

/-- Only what is wanted is kept, and failure comes where there is no more room for it. -/
theorem run_keep (wanted : Visit → Bool) (limit : Option Nat) (visit : Visit)
    (kept : Array Visit) :
    (keep wanted limit visit).run kept =
      if wanted visit then
        if limit.any (· ≤ kept.size) then (.error (), kept) else (.ok (), kept.push visit)
      else (.ok (), kept) := by
  cases h : wanted visit with
  | false =>
    rw [keep, h]
    rfl
  | true =>
    simp only [keep, h, if_true]
    change (if limit.any (· ≤ kept.size) then (do throw (); modify (·.push visit)) else
      modify (·.push visit) : ExceptT Unit (StateM (Array Visit)) Unit).run kept = _
    split <;> rfl

/-- What is not wanted changes nothing. -/
theorem ofVisits_unwanted (h : wanted visit = false) (rest : List Visit) :
    ofVisits wanted limit (visit :: rest) kept = ofVisits wanted limit rest kept := by
  rw [ofVisits_cons, run_keep, h]
  rfl

/-- What is wanted and has no room ends the walk. -/
theorem ofVisits_full (h : wanted visit = true) (hfull : limit.any (· ≤ kept.size) = true)
    (rest : List Visit) :
    ofVisits wanted limit (visit :: rest) kept = (.error (), kept) := by
  rw [ofVisits_cons, run_keep, h, hfull]
  rfl

/-- What is wanted and has room is kept behind the others. -/
theorem ofVisits_room (h : wanted visit = true) (hroom : limit.any (· ≤ kept.size) = false)
    (rest : List Visit) :
    ofVisits wanted limit (visit :: rest) kept =
      ofVisits wanted limit rest (kept.push visit) := by
  rw [ofVisits_cons, run_keep, h, hroom]
  rfl

/-- Without a limit the visitor keeps all that it wants. -/
theorem ofVisits_none (visits : List Visit) (kept : Array Visit) :
    ofVisits wanted none visits kept = (.ok (), kept ++ (visits.filter wanted).toArray) := by
  induction visits generalizing kept with
  | nil => exact congrArg (Except.ok (), ·) (Array.append_empty).symm
  | cons visit rest ih =>
    cases h : wanted visit with
    | false => rw [ofVisits_unwanted h, List.filter_cons_of_neg (by simp [h]), ih]
    | true =>
      rw [ofVisits_room h rfl, List.filter_cons_of_pos h, ih]
      simp

/-- With a limit it keeps the first of them, and comes to the end if there are no others. -/
theorem ofVisits_some {bound : Nat} (visits : List Visit) (hkept : kept.size ≤ bound) :
    ofVisits wanted (some bound) visits kept =
      (if kept.size + (visits.filter wanted).length ≤ bound then .ok () else .error (),
        kept ++ ((visits.filter wanted).take (bound - kept.size)).toArray) := by
  induction visits generalizing kept with
  | nil =>
    show (Except.ok (), kept) = _
    simp [hkept]
  | cons visit rest ih =>
    cases h : wanted visit with
    | false => rw [ofVisits_unwanted h, List.filter_cons_of_neg (by simp [h]), ih hkept]
    | true =>
      rw [List.filter_cons_of_pos h, List.length_cons]
      by_cases hfull : bound ≤ kept.size
      · have hnone : bound - kept.size = 0 := by omega
        rw [ofVisits_full h (by simpa using hfull), hnone, if_neg (by omega), List.take_zero]
        simp
      · have hpush : (kept.push visit).size = kept.size + 1 := Array.size_push visit
        have hmore : bound - kept.size = bound - (kept.size + 1) + 1 := by omega
        rw [ofVisits_room h (by simpa using hfull), ih (by omega), hpush, hmore,
          List.take_succ_cons, Nat.add_assoc, Nat.add_comm 1]
        simp

end Recording

/-- What is recorded of a walk is recorded of a list of announcements. -/
theorem Block.record_eq (block : Block) (wanted : Visit → Bool) (withParameters : Bool) :
    ∃ visits, ∀ limit, block.record wanted limit withParameters =
      ⟨(Recording.ofVisits wanted limit visits #[]).2,
        (Recording.ofVisits wanted limit visits #[]).1.isOk⟩ := by
  obtain ⟨visits, hvisits⟩ := block.isSequence_walk withParameters
  refine ⟨visits, fun limit => ?_⟩
  have hrun : (block.walk (Recording.keep wanted limit) withParameters).run #[] =
      Recording.ofVisits wanted limit visits #[] := by
    rw [Recording.ofVisits, ← hvisits]
  rw [record, hrun]
  rcases Recording.ofVisits wanted limit visits #[] with ⟨_ | _, kept⟩ <;> rfl

/-- A visitor that fails stops the walk there and then. With a limit it has kept as many of the
announcements that it wants as the limit allows, the first ones of those it keeps without a limit,
and the walk comes to its end if and only if these are all. -/
theorem failing_visit_stops_walk (block : Block) (wanted : Visit → Bool) (withParameters : Bool)
    (limit : Nat) :
    (block.record wanted none withParameters).completed = true ∧
    (block.record wanted (some limit) withParameters).visits.toList =
      (block.record wanted none withParameters).visits.toList.take limit ∧
    (block.record wanted (some limit) withParameters).visits.size =
      min limit (block.record wanted none withParameters).visits.size ∧
    ((block.record wanted (some limit) withParameters).completed = true ↔
      (block.record wanted none withParameters).visits.size ≤ limit) := by
  obtain ⟨visits, hrecord⟩ := block.record_eq wanted withParameters
  rw [hrecord, hrecord, Recording.ofVisits_none, Recording.ofVisits_some _ (Nat.zero_le _)]
  refine ⟨rfl, by simp, by simp, ?_⟩
  by_cases h : (visits.filter wanted).length ≤ limit
  · simp [h, Except.isOk, Except.toBool]
  · simp [h, Except.isOk, Except.toBool]

/-- The statement `var f = a => { return a; };` -/
def Block.sampleArrow : Block :=
  ⟨⟨0, 27⟩, .synthetic, [.binding ⟨⟨4, 5⟩, ⟨⟨4, 5⟩, "f", false, false⟩,
    some (.functionDef ⟨⟨8, 26⟩, ⟨⟨8, 8⟩, "", false, false⟩, .arrow,
      [⟨⟨8, 9⟩, "a", false, false⟩], ⟨⟨13, 26⟩, .braced,
        [.returnValue ⟨15, 24⟩ (some (.ident ⟨⟨22, 23⟩, "a", false, false⟩)) false]⟩,
      true, false, false, false⟩), .var, false⟩]⟩

/-- The value of a variable is walked over in front of its name, and the parameters of a function
in front of its body. The third identifier is the one at which the visitor fails. -/
example :
    let kept (recording : Recording) :=
      recording.visits.toList.map fun visit => (visit.name, visit.range.start)
    kept (Block.sampleArrow.record (fun _ => true) none true) =
        [("block", 0), ("stmt", 4), ("var", 4), ("expr", 8), ("function", 8), ("ident", 8),
          ("block", 13), ("stmt", 15), ("return", 15), ("expr", 22), ("ident", 22), ("ident", 4)] ∧
      kept (Block.sampleArrow.record Recording.isIdent (some 2) true) =
        [("ident", 8), ("ident", 22)] ∧
      (Block.sampleArrow.record Recording.isIdent (some 2) true).completed = false := by
  decide +kernel

end Concretion
