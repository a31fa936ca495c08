import Concretion.Proofs.Attaching
import Concretion.Proofs.Semicolons

/-!
# Statements with semicolons

An expression statement and a statement of variables are followed by a semicolon. It is looked for
from where the expression or the last declarator ends, the parentheses of redundant groups not
counted. So a parenthesis that is closed in front of the semicolon hides it.

- `Stmt.EndsAt`: where a semicolon is looked for behind a statement that has been recovered.
- `Source.Trails`: nothing but closing parentheses, blank space and comments up to a semicolon.
- `ownsSemicolon_iff_not_closes`: the semicolon is seen just if none of these is a parenthesis.
-/

namespace Concretion

open Recover

/-! ## Text behind a statement -/

namespace Source

/-- From the offset on there are only closing parentheses, blank space and comments, up to a
semicolon of the code. -/
structure Trails (source : Source) (start stop : Nat) : Prop where
  le : start ≤ stop
  closing : ∀ offset, start ≤ offset → offset < stop → source.significant offset = true →
    source.codeAt 0x29 offset = true
  semicolon : source.codeAt 0x3B stop = true

/-- A text shows what stands behind a statement. -/
instance (source : Source) (start stop : Nat) : Decidable (source.Trails start stop) :=
  decidable_of_iff
    (start ≤ stop ∧ (∀ offset, start ≤ offset → offset < stop →
      source.significant offset = true → source.codeAt 0x29 offset = true) ∧
      source.codeAt 0x3B stop = true)
    ⟨fun ⟨a, b, c⟩ => ⟨a, b, c⟩, fun ⟨a, b, c⟩ => ⟨a, b, c⟩⟩

variable {source : Source}

/-- The semicolon is found just if no parenthesis is closed in front of it, unless the byte in front
of the offset is a semicolon itself. -/
theorem Trails.ends_iff {start stop : Nat} (h : source.Trails start stop)
    (hmode : source.mode = .skipTrivia) (hpos : 0 < start) :
    source.endsWithSemicolon start = true ↔
      source.byteAt (start - 1) = some 0x3B ∨
        ∀ offset, start ≤ offset → offset < stop → source.codeAt 0x29 offset = false := by
  have hstop := significant_of_codeAt (by decide) h.semicolon
  rw [endsWithSemicolon_iff_probes hmode]
  constructor
  · rintro ⟨offset, rfl | hfirst, hbyte⟩
    · exact .inl hbyte
    · right
      intro place hlow hhigh
      -- the first significant byte would be a closing parenthesis
      rw [Bool.eq_false_iff]
      intro hcloses
      have hplace : offset ≤ place := by
        by_contra hlt
        have hno := hfirst.first place hlow (Nat.not_le.1 hlt)
        rw [significant_of_codeAt (by decide) hcloses] at hno
        cases hno
      have hparen := h.closing offset hfirst.behind (hplace.trans_lt hhigh) hfirst.significant
      rw [byteAt_of_codeAt hparen] at hbyte
      cases hbyte
  · rintro (hbefore | hnone)
    · exact ⟨start - 1, .inl (Nat.sub_add_cancel hpos), hbefore⟩
    · refine ⟨stop, .inr ⟨h.le, hstop, fun place hlow hhigh => ?_⟩, ?_⟩
      swap
      · exact byteAt_of_codeAt h.semicolon
      rw [Bool.eq_false_iff]
      intro hsignificant
      have hcloses := h.closing place hlow hhigh hsignificant
      rw [hnone place hlow hhigh] at hcloses
      cases hcloses

end Source

/-! ## Declarators -/

theorem Stack.lastChild?_replaceLast {stack : Stack} {node : Node} (made : Node)
    (h : stack.lastChild? = some node) :
    (stack.modifyCurrent (·.modifyLastChild fun _ => made)).lastChild? = some made := by
  have hlast : ∀ stack : Stack, stack.lastChild? = stack.children.getLast? := fun _ => rfl
  rw [Stack.replaceLast_eq_setChildren made h, hlast, Stack.children_setChildren,
    List.getLast?_concat]

/-- The last of the variables that a node declares, by itself or as the statement that it
exports. -/
def Node.lastDeclarator? (node : Node) : Option Node :=
  if node.kind.isVar then node.lastChild? else node.lastChild?.bind Node.lastChild?

/-- Does the statement of variables own a semicolon just if one is found from the end of its last
declarator on, or from the given offset, whichever comes later? -/
def Node.DeclaresUpTo (node : Node) (source : Source) (finish : Nat) : Prop :=
  ∃ declarator, node.lastDeclarator? = some declarator ∧
    node.ownsSemicolon = source.endsWithSemicolon (max finish (declarator.last + 1))

/-- The node declares variables, the last of them by a declarator that is as said, and owns the
semicolon behind that one. -/
def Node.DeclaresLast (node : Node) (source : Source) (finish : Nat) (result : Node → Prop) :
    Prop :=
  ∃ declarator, node.lastDeclarator? = some declarator ∧ result declarator ∧
    node.ownsSemicolon = source.endsWithSemicolon (max finish (declarator.last + 1))

theorem Node.DeclaresLast.upTo {node : Node} {source : Source} {finish : Nat} {result : Node → Prop}
    (h : node.DeclaresLast source finish result) : node.DeclaresUpTo source finish := by
  obtain ⟨declarator, hlast, -, hflag⟩ := h
  exact ⟨declarator, hlast, hflag⟩

namespace Rule

variable {scope : Scope} {binding : BindingFragment}

theorem sees_addDeclarator (declarator node : Node) :
    Sees scope (addDeclarator declarator node) fun made =>
      made.kind = node.kind ∧ made.lastChild? = some declarator := by
  refine (Sees.mergeSpans _ _).bind fun span _ => (Sees.pure _).mono ?_
  rintro _ rfl
  exact ⟨rfl, List.getLast?_concat⟩

/-- A declarator that extends a statement is the last one in it. -/
theorem sees_extendVariables {statement declarator : Node}
    (h : statement.declaresVariables = true) :
    Sees scope (extendVariables statement declarator) (·.lastDeclarator? = some declarator) := by
  unfold extendVariables
  by_cases hvar : statement.kind.isVar = true
  · rw [if_pos hvar]
    refine (sees_addDeclarator _ _).mono ?_
    rintro made ⟨hkind, hlast⟩
    rw [Node.lastDeclarator?, hkind, if_pos hvar, hlast]
  · rw [if_neg hvar]
    rw [Bool.not_eq_true] at hvar
    rw [Node.declaresVariables, hvar, Bool.false_or, Bool.and_eq_true, Option.any_eq_true] at h
    obtain ⟨hexport, held, hheld, hkind⟩ := h
    refine (Sees.mergeSpans _ _).bind fun span _ => ?_
    rw [hheld, Option.toList_some, List.mapM_cons, List.mapM_nil]
    simp only [bind_assoc, pure_bind]
    refine (sees_addDeclarator _ _).bind fun made ⟨hmade, hlast⟩ => (Sees.pure _).mono ?_
    rintro _ rfl
    have hlast' : (statement.children.dropLast ++ [made]).getLast? = some made :=
      List.getLast?_concat
    simp only [Node.lastDeclarator?, hvar, Bool.false_eq_true, if_false, Node.lastChild?, hlast',
      Option.bind_some]
    exact hlast

section

variable {result : Node → Prop} (hdeclaration : Returns scope (declaration binding) result)

include hdeclaration

theorem endsIn_continuedVariable :
    EndsIn scope (continuedVariable binding)
      (·.DeclaresLast scope.source binding.range.finish result) := by
  refine .returned hdeclaration fun declarator hresult => ?_
  refine .after (.terminates _ _) fun flag hflag => ?_
  subst hflag
  intro session value last hrun
  rw [outcome_bind_ok (outcome_getStack scope session)] at hrun
  cases hlast : session.stack.lastChild? with
  | none =>
    rw [hlast] at hrun
    cases hrun
  | some statement =>
    rw [hlast] at hrun
    dsimp only at hrun
    split at hrun
    · next hdeclares =>
      obtain ⟨extended, later, hextend, hreplace⟩ := ok_of_bind hrun
      obtain ⟨hstack, hdeclarator⟩ := sees_extendVariables hdeclares session extended later hextend
      cases hreplace
      rw [← hstack] at hlast
      exact ⟨_, Stack.lastChild?_replaceLast _ hlast, declarator, hdeclarator, hresult, rfl⟩
    · cases hrun

theorem endsIn_variableStatement (keywordStart windowStart : Nat) :
    EndsIn scope (variableStatement binding keywordStart windowStart)
      (·.DeclaresLast scope.source binding.range.finish result) := by
  refine .behind fun keyword => .returned hdeclaration fun declarator hresult => ?_
  refine .after (.spanBetween _ _) fun span hspan => .after (.terminates _ _) fun flag hflag => ?_
  subst hspan hflag
  refine .behind fun status => Puts.endsIn (.exportIf ?_ fun _ _ _ => ?_)
  · exact ⟨declarator, rfl, hresult, rfl⟩
  · exact ⟨declarator, rfl, hresult, rfl⟩

/-- Whether a variable begins a statement or goes on with one, its declarator is the last. -/
theorem endsIn_variableBinding :
    EndsIn scope (variableBinding binding)
      (·.DeclaresLast scope.source binding.range.finish result) := by
  refine .behind fun windowStart => .behind fun found => ?_
  cases found with
  | some offset => exact endsIn_variableStatement hdeclaration _ _
  | none =>
    refine .behind fun stack => ?_
    split
    · exact endsIn_continuedVariable hdeclaration
    · exact .behind fun source => .behind fun offset => endsIn_variableStatement hdeclaration _ _

theorem endsIn_binding (hname : binding.name.name ≠ defaultBindingName)
    (hvariable : binding.isFunctionDeclaration = false) :
    EndsIn scope (Rule.binding binding)
      (·.DeclaresLast scope.source binding.range.finish result) := by
  refine .behind fun _ => ?_
  rw [if_neg (by simpa using hname), if_neg (Bool.eq_false_iff.1 hvariable)]
  exact endsIn_variableBinding hdeclaration

end

end Rule

/-! ## Statements -/

/-- Is the binding a variable, and not a function, a class or a default export? -/
def Binding.isVariable (binding : Binding) : Bool :=
  !binding.declaresClass && !binding.isFunctionDeclaration &&
    binding.name.name != defaultBindingName

/-- A variable is recovered as such, whatever its value is. -/
theorem Binding.endsIn {scope : Scope} {binding : Binding} (h : binding.isVariable = true) :
    EndsIn scope binding.recover (·.DeclaresUpTo scope.source binding.range.finish) := by
  obtain ⟨range, name, init, kind, isFunctionDeclaration⟩ := binding
  simp only [isVariable, Bool.and_eq_true, Bool.not_eq_true', bne_iff_ne, ne_eq] at h
  obtain ⟨⟨hclass, rfl⟩, hname⟩ := h
  have hrule : ∀ init : Option Fragment,
      EndsIn scope (Rule.binding ⟨range, name, init, kind, false⟩)
        (·.DeclaresUpTo scope.source range.finish) := by
    intro init session value last hrun
    have hends := Rule.endsIn_binding (fun _ _ _ _ => trivial) hname rfl session value last hrun
    obtain ⟨node, hlast, hdeclares⟩ := hends
    exact ⟨node, hlast, hdeclares.upTo⟩
  unfold Binding.recover
  split
  · next heq =>
    cases heq
    rw [if_neg (by simp [hclass])]
    exact hrule _
  · next heq =>
    cases heq
    exact hrule _

/-- Is this an expression statement or a statement of variables? -/
def Stmt.isOpenEnded : Stmt → Bool
  | .expression .. => true
  | .binding definition => definition.isVariable
  | _ => false

/-- The offset from which a semicolon is looked for behind a statement that has been recovered as
the node: where the expression or the last declarator finishes, or where its node does if that is
further. -/
def Stmt.EndsAt (statement : Stmt) (node : Node) (finish : Nat) : Prop :=
  match statement with
  | .expression _ expr => finish = max expr.range.finish (node.last + 1)
  | .binding definition => ∃ declarator, node.lastDeclarator? = some declarator ∧
      finish = max definition.range.finish (declarator.last + 1)
  | _ => False

theorem Stmt.EndsAt.pos {statement : Stmt} {node : Node} {finish : Nat}
    (h : statement.EndsAt node finish) : 0 < finish := by
  cases statement with
  | expression range expr =>
    have hfinish : finish = max expr.range.finish (node.last + 1) := h
    omega
  | binding binding =>
    obtain ⟨declarator, -, hfinish⟩ := h
    omega
  | _ => exact h.elim

/-- A statement of either kind owns a semicolon just if one is found where it ends. -/
theorem Stmt.ownsSemicolon_eq {scope : Scope} {statement : Stmt} (h : statement.isOpenEnded = true)
    {session last : Session} (hskips : session.skipsName = false)
    (hrun : statement.recover.outcome scope session = (.ok (), last)) :
    ∃ node finish, last.stack.lastChild? = some node ∧ statement.EndsAt node finish ∧
      node.ownsSemicolon = scope.source.endsWithSemicolon finish := by
  -- Only these two sorts of statement are open ended. An expression gets its flag in place, a
  -- declaration where it is built.
  cases statement with
  | expression range expr =>
    obtain ⟨_, later, hexpr, hflag⟩ := ok_of_bind hrun
    obtain ⟨node, hstack⟩ := Expr.exists_attach hskips hexpr
    have hnode : later.stack.lastChild? = some node := hstack ▸ Stack.lastChild?_attach _ _
    rw [outcome_bind_ok (outcome_getStack scope later), hnode] at hflag
    obtain ⟨flagged, between, hsees, hreplace⟩ := ok_of_bind hflag
    have hsemicolon : Sees scope (Rule.withSemicolon node expr.range.finish)
        (· = { node with ownsSemicolon :=
          scope.source.endsWithSemicolon (max expr.range.finish (node.last + 1)) }) := by
      refine (Sees.terminates _ _).bind fun flag hflag => ?_
      subst hflag
      exact .pure _
    obtain ⟨hstack, rfl⟩ := hsemicolon later flagged between hsees
    cases hreplace
    rw [← hstack] at hnode
    exact ⟨_, _, Stack.lastChild?_replaceLast _ hnode, rfl, rfl⟩
  | binding binding =>
    obtain ⟨node, hnode, declarator, hdeclarator, hflag⟩ := Binding.endsIn h session () last hrun
    exact ⟨node, _, hnode, ⟨declarator, hdeclarator, rfl⟩, hflag⟩
  | _ => cases h

/-- Behind the end of an expression statement or of a statement of variables there may be nothing
but closing parentheses, blank space and comments, up to a semicolon. The statement owns the
semicolon just if none of these is a parenthesis, unless its own last byte is a semicolon. -/
theorem ownsSemicolon_iff_not_closes {scope : Scope} {statement : Stmt}
    (hkind : statement.isOpenEnded = true) (hmode : scope.source.mode = .skipTrivia)
    {session last : Session} (hskips : session.skipsName = false)
    (hrun : statement.recover.outcome scope session = (.ok (), last)) :
    ∃ node finish, last.stack.lastChild? = some node ∧ statement.EndsAt node finish ∧
      ∀ stop, scope.source.Trails finish stop →
        (node.ownsSemicolon = true ↔ scope.source.byteAt (finish - 1) = some 0x3B ∨
          ∀ offset, finish ≤ offset → offset < stop → scope.source.codeAt 0x29 offset = false) := by
  obtain ⟨node, finish, hnode, hends, hflag⟩ := Stmt.ownsSemicolon_eq hkind hskips hrun
  refine ⟨node, finish, hnode, hends, fun stop htrails => ?_⟩
  rw [hflag]
  exact htrails.ends_iff hmode hends.pos

/-- An assignment of a sum. -/
def Stmt.sumAssignment : Stmt :=
  let sum : Expr := .binary ⟨5, 10⟩ .add (.ident ⟨⟨5, 6⟩, "a", false, false⟩)
    (.ident ⟨⟨9, 10⟩, "b", false, false⟩)
  .expression ⟨0, 10⟩ (.binary ⟨0, 10⟩ .assign (.ident ⟨⟨0, 1⟩, "x", false, false⟩) sum)

/-- A variable whose value is in two pairs of parentheses. -/
def Stmt.wrappedVariable : Stmt :=
  .binding ⟨⟨4, 11⟩, ⟨⟨4, 5⟩, "y", false, false⟩, some (.ident ⟨⟨10, 11⟩, "c", false, false⟩), .var,
    false⟩

/-- The semicolon behind the sum is seen if the sum is not in parentheses. Else it is not, nor is
that behind the variable. -/
theorem semicolon_of_sumAssignment :
    let plain := Scope.of "x =  a + b ;" none .unforgiving
    let wrapped := Scope.of "x = (a + b);" none .unforgiving
    let declared := Scope.of "var y = ((c));" none .unforgiving
    (plain.source.Trails 10 11 ∧ ∃ node later,
      Stmt.sumAssignment.recover.outcome plain (.start plain.source) = (.ok (), later) ∧
        later.stack.lastChild? = some node ∧ node.ownsSemicolon = true) ∧
      (wrapped.source.Trails 10 11 ∧ ∃ node later,
        Stmt.sumAssignment.recover.outcome wrapped (.start wrapped.source) = (.ok (), later) ∧
          later.stack.lastChild? = some node ∧ node.ownsSemicolon = false) ∧
      (declared.source.Trails 11 13 ∧ ∃ node later,
        Stmt.wrappedVariable.recover.outcome declared (.start declared.source) = (.ok (), later) ∧
          later.stack.lastChild? = some node ∧ node.ownsSemicolon = false) := by
  intro plain wrapped declared
  have hfinish : ∀ {node finish}, Stmt.sumAssignment.EndsAt node finish → node.last = 9 →
      finish = 10 := by
    intro node finish hends hlast
    have hmax : finish = max 10 (node.last + 1) := hends
    rw [hmax, hlast]
    rfl
  refine ⟨⟨by decide +kernel, ?_⟩, ⟨by decide +kernel, ?_⟩, by decide +kernel, ?_⟩
  · have hrun : Stmt.sumAssignment.recover.outcome plain (.start plain.source) = (.ok (), _) :=
      Prod.ext (by decide +kernel) rfl
    have hlast : (Stmt.sumAssignment.recover.outcome plain
        (.start plain.source)).2.stack.lastChild?.map Node.last = some 9 := by decide +kernel
    obtain ⟨node, finish, hnode, hends, hseen⟩ := ownsSemicolon_iff_not_closes rfl rfl rfl hrun
    rw [hnode, Option.map_some, Option.some_inj] at hlast
    obtain rfl := hfinish hends hlast
    refine ⟨node, _, hrun, hnode, (hseen 11 (by decide +kernel)).2 (.inr ?_)⟩
    decide +kernel
  · have hrun : Stmt.sumAssignment.recover.outcome wrapped (.start wrapped.source) = (.ok (), _) :=
      Prod.ext (by decide +kernel) rfl
    have hlast : (Stmt.sumAssignment.recover.outcome wrapped
        (.start wrapped.source)).2.stack.lastChild?.map Node.last = some 9 := by decide +kernel
    obtain ⟨node, finish, hnode, hends, hseen⟩ := ownsSemicolon_iff_not_closes rfl rfl rfl hrun
    rw [hnode, Option.map_some, Option.some_inj] at hlast
    obtain rfl := hfinish hends hlast
    refine ⟨node, _, hrun, hnode, ?_⟩
    rw [Bool.eq_false_iff, ne_eq, hseen 11 (by decide +kernel)]
    decide +kernel
  · have hrun : Stmt.wrappedVariable.recover.outcome declared (.start declared.source) =
        (.ok (), _) := Prod.ext (by decide +kernel) rfl
    have hlast : ((Stmt.wrappedVariable.recover.outcome declared
        (.start declared.source)).2.stack.lastChild?.bind Node.lastDeclarator?).map Node.last =
          some 10 := by decide +kernel
    obtain ⟨node, finish, hnode, ⟨declarator, hdeclarator, hfinish⟩, hseen⟩ :=
      ownsSemicolon_iff_not_closes rfl rfl rfl hrun
    rw [hnode, Option.bind_some, hdeclarator, Option.map_some, Option.some_inj] at hlast
    obtain rfl : finish = 11 := by
      rw [hfinish, hlast]
      rfl
    refine ⟨node, _, hrun, hnode, ?_⟩
    rw [Bool.eq_false_iff, ne_eq, hseen 13 (by decide +kernel)]
    decide +kernel

end Concretion
