import Concretion.Proofs.Attaching
import Concretion.Proofs.Nesting
import Concretion.Proofs.Paid.Steps

/-!
# Empty clauses

The colon of a clause of a `switch` statement is searched for in front of the first statement of the
clause. A clause without statements has none, so the search stops where the clause ends. Whether the
colon is found is then up to the range of the clause, which may end in front of it.

- `SwitchCase.Written`: a clause without statements, with its colon in the text.
- `SwitchCase.recoverAround`: what is recovered of the clause once a colon is settled on.
- `colon_of_empty_clause`: the colon in the text is recovered just if the clause ends behind it.
-/

namespace Concretion

open Recover Text

namespace SwitchCase

variable (clause : SwitchCase)

/-! ## Clauses without statements -/

/-- Where the search for the colon begins: behind the test, or behind the word. -/
def front : Nat :=
  match clause.test with
  | some test => test.range.finish
  | none => clause.range.start + "default".utf8ByteSize

/-- What the clause is called where its colon is missed. -/
def context : String :=
  match clause.test with
  | some _ => "Case"
  | none => "Default"

/-- What the node of the clause is. -/
def nodeKind (colon : Symbol) : NodeKind :=
  match clause.test with
  | some _ => .caseClause colon
  | none => .defaultClause colon

/-- The colon is missing from what the clause covers behind its test. -/
def missingColon (source : Source) : Missing :=
  source.missing clause.context Token.colon.text clause.front clause.range.finish

/-- What is recovered of a clause without statements around its colon. -/
def recoverAround (place : Nat) : Recover Unit := do
  let colon ← symbolAt .colon place
  let span ← mergeSpans (← rangeSpan clause.range.start clause.range.finish) colon.span
  enter (.leaf (clause.nodeKind colon) span)
    (Fragment.buildOptional (optionalFragment clause.test))

/-- The clause has no statements, and its colon stands at the offset. Blanks, comments and whatever
else is no colon may stand in front of it. The range of the clause ends there, or with the colon. -/
structure Written (source : Source) (colon : Nat) : Prop where
  empty : clause.statements = []
  stands : source.codeAt 0x3A colon = true
  behind : clause.front ≤ colon
  first : ∀ offset, clause.front ≤ offset → offset < colon → source.codeAt 0x3A offset = false
  start : clause.front ≤ clause.range.finish
  finish : clause.range.finish ≤ colon + 1

instance (source : Source) (colon : Nat) : Decidable (clause.Written source colon) :=
  have : Decidable (clause.statements = []) :=
    decidable_of_iff (clause.statements.isEmpty = true) List.isEmpty_iff
  decidable_of_iff
    (clause.statements = [] ∧ source.codeAt 0x3A colon = true ∧ clause.front ≤ colon ∧
      (∀ offset, clause.front ≤ offset → offset < colon → source.codeAt 0x3A offset = false) ∧
      clause.front ≤ clause.range.finish ∧ clause.range.finish ≤ colon + 1)
    ⟨fun ⟨a, b, c, d, e, f⟩ => ⟨a, b, c, d, e, f⟩, fun ⟨a, b, c, d, e, f⟩ => ⟨a, b, c, d, e, f⟩⟩

variable {clause}

/-- The colon is found just if the clause ends behind it. -/
theorem Written.find {source : Source} {colon : Nat} (h : clause.Written source colon)
    (hmode : source.mode = .skipTrivia) :
    source.find Token.colon.text clause.front clause.range.finish =
      if colon < clause.range.finish then some colon else none := by
  have hmatches : ∀ offset,
      source.matchesAt (pattern Token.colon.text) offset = source.codeAt 0x3A offset :=
    source.matchesAt_byte hmode _
  have hbehind := h.behind
  have hsize := Source.lt_size_of_codeAt h.stands
  rw [Source.find]
  by_cases hends : colon < clause.range.finish
  · rw [if_pos hends]
    refine Search.firstFrom_eq_some_iff.2 ⟨?_, hbehind, by omega, fun i hlow hhigh => ?_⟩
    · rw [hmatches]
      exact h.stands
    · rw [hmatches]
      exact h.first i hlow hhigh
  · rw [if_neg hends]
    refine Search.firstFrom_eq_none_iff.2 fun i hlow hhigh => ?_
    rw [hmatches]
    exact h.first i hlow (by omega)

/-! ## The recovery of a clause without statements -/

theorem recover_eq (h : clause.statements = []) :
    clause.recover = (do
      let colon ← find .colon clause.context clause.front clause.range.finish
      let span ← mergeSpans (← rangeSpan clause.range.start clause.range.finish) colon.span
      enter (.leaf (clause.nodeKind colon) span)
        (Fragment.buildOptional (optionalFragment clause.test))) := by
  obtain ⟨range, test, statements⟩ := clause
  subst h
  have hnone : ∀ action : Recover Unit, (do
      action
      (statementFragments []).forM (·.build)) = action := fun action => bind_pure_unit
  have hnode : ∀ (kind : NodeKind) (colon : Symbol),
      Rule.caseNode ⟨range, optionalFragment test, statementFragments []⟩ kind colon = (do
        let span ← mergeSpans (← rangeSpan range.start range.finish) colon.span
        enter (.leaf kind span) (Fragment.buildOptional (optionalFragment test))) := by
    intro kind colon
    rw [Rule.caseNode]
    simp only [hnone]
  cases test with
  | none => exact bind_congr fun colon => hnode (.defaultClause colon) colon
  | some => exact bind_congr fun colon => hnode (.caseClause colon) colon

theorem outcome_of_found (h : clause.statements = []) {scope : Scope} {place : Nat}
    (hfind : scope.source.find Token.colon.text clause.front clause.range.finish = some place)
    (session : Session) :
    clause.recover.outcome scope session = (clause.recoverAround place).outcome scope session := by
  rw [recover_eq h, find, bind_assoc, outcome_bind_ok (outcome_source scope session),
    Source.locate, hfind]
  rfl

theorem outcome_of_missing (h : clause.statements = []) {scope : Scope}
    (hfind : scope.source.find Token.colon.text clause.front clause.range.finish = none)
    (session : Session) :
    clause.recover.outcome scope session =
      if scope.strict then (.error (.missing (clause.missingColon scope.source)), session)
      else (clause.recoverAround clause.front).outcome scope
        (session.lacking (clause.missingColon scope.source)) := by
  have hreport := outcome_report (clause.missingColon scope.source) scope session
  rw [recover_eq h, find, bind_assoc, outcome_bind_ok (outcome_source scope session),
    Source.locate, hfind]
  simp only [settle, bind_assoc, pure_bind]
  by_cases hstrict : scope.strict = true
  · rw [if_pos hstrict] at hreport ⊢
    exact outcome_bind_error hreport
  · rw [if_neg hstrict] at hreport ⊢
    exact outcome_bind_ok hreport

/-- Around a colon a single node is attached, which has that colon and covers it. -/
theorem puts_recoverAround (clause : SwitchCase) (scope : Scope) (place : Nat) :
    Puts scope (clause.recoverAround place) fun node =>
      node.kind = clause.nodeKind (Token.colon.at place) ∧
        node.span.contains (Token.colon.at place).span = true := by
  refine .after (.symbolAt _ _) fun colon hcolon => .after (.rangeSpan _ _) fun full _ => ?_
  subst hcolon
  refine .after (.mergeSpans _ _) fun span hspan => ?_
  have htest : PutsAll scope (Fragment.buildOptional (optionalFragment clause.test))
      fun _ => True := by
    cases clause.test with
    | none => exact (PutsAll.ofSees (.pure ())).mono fun _ _ => trivial
    | some test => exact (test.putsAll scope).mono fun _ _ => trivial
  refine .after (.withinAll htest) fun made ⟨nodes, _, hcover⟩ => .attach ?_
  have haround := (Node.contains_of_cover hcover).1
  obtain ⟨wide, rfl⟩ := Node.eq_of_cover hcover
  exact ⟨rfl, Span.contains_trans haround (Span.contains_of_merge hspan).2⟩

end SwitchCase

/-- A `switch` statement is recovered only if each of its clauses is. -/
theorem Stmt.exists_ok_of_switch {range : Range} {subject : Expr} {cases : List SwitchCase}
    {clause : SwitchCase} (hmem : clause ∈ cases) {scope : Scope} {session last : Session}
    (h : (Stmt.switch range subject cases).recover.outcome scope session = (.ok (), last)) :
    ∃ before after, clause.recover.outcome scope before = (.ok (), after) := by
  -- A loop that has succeeded has run each of its steps, in some session.
  have hcases : ∀ cases : List SwitchCase, clause ∈ cases → ∀ {session last},
      ((caseBuilds cases).forM (·.2)).outcome scope session = (.ok (), last) →
        ∃ before after, clause.recover.outcome scope before = (.ok (), after) := by
    intro cases hmem
    induction cases with
    | nil => cases hmem
    | cons first rest ih =>
      intro session last hrun
      obtain ⟨⟨⟩, middle, hfirst, hrest⟩ := ok_of_bind hrun
      rcases List.mem_cons.1 hmem with rfl | hmem
      · exact ⟨session, middle, hfirst⟩
      · exact ih hmem hrest
  rw [Stmt.recover, Rule.switch] at h
  obtain ⟨_, _, -, h⟩ := ok_of_bind h
  obtain ⟨_, _, -, h⟩ := ok_of_bind h
  obtain ⟨_, _, -, h⟩ := ok_of_bind h
  obtain ⟨_, _, -, h⟩ := ok_of_bind h
  obtain ⟨_, _, -, h⟩ := ok_of_bind h
  obtain ⟨made, _, hwithin, -⟩ := ok_of_bind h
  obtain ⟨_, _, hbody, -⟩ := ok_of_within hwithin
  obtain ⟨⟨⟩, _, -, hforM⟩ := ok_of_bind hbody
  exact hcases cases hmem hforM

/-- The colon of a clause without statements is recovered as it stands in the text, and none is
missed, if the clause ends behind it. If the clause ends in front of it, however close, a colon is
missed. Strict recoveries of the clause, and of any statement with such a clause, then fail. Lenient
ones put the colon where the search for it began. Whichever place it is, the node covers it. -/
theorem colon_of_empty_clause {clause : SwitchCase} {scope : Scope} {colon : Nat}
    (hmode : scope.source.mode = .skipTrivia) (h : clause.Written scope.source colon)
    (session : Session) :
    (colon < clause.range.finish →
      clause.recover.outcome scope session = (clause.recoverAround colon).outcome scope session) ∧
    (clause.range.finish ≤ colon →
      (scope.strict = true →
        clause.recover.outcome scope session =
            (.error (.missing (clause.missingColon scope.source)), session) ∧
          ∀ range subject cases last, clause ∈ cases →
            (Stmt.switch range subject cases).recover.outcome scope session ≠ (.ok (), last)) ∧
      (scope.strict = false →
        clause.recover.outcome scope session =
          (clause.recoverAround clause.front).outcome scope
            (session.lacking (clause.missingColon scope.source)))) ∧
    ∀ place, Puts scope (clause.recoverAround place) fun node =>
      node.kind = clause.nodeKind (Token.colon.at place) ∧
        node.span.contains (Token.colon.at place).span = true := by
  have hfind := h.find hmode
  refine ⟨fun hbehind => ?_, fun hfront => ⟨fun hstrict => ?_, fun hlenient => ?_⟩,
    clause.puts_recoverAround scope⟩
  · rw [if_pos hbehind] at hfind
    exact SwitchCase.outcome_of_found h.empty hfind session
  · rw [if_neg (Nat.not_lt.2 hfront)] at hfind
    have hfails : ∀ session, clause.recover.outcome scope session =
        (.error (.missing (clause.missingColon scope.source)), session) := by
      intro session
      rw [SwitchCase.outcome_of_missing h.empty hfind session, if_pos hstrict]
    refine ⟨hfails session, fun range subject cases last hmem hrun => ?_⟩
    obtain ⟨before, after, hclause⟩ := Stmt.exists_ok_of_switch hmem hrun
    rw [hfails before] at hclause
    cases hclause
  · rw [if_neg (Nat.not_lt.2 hfront)] at hfind
    rw [SwitchCase.outcome_of_missing h.empty hfind session, if_neg (Bool.eq_false_iff.1 hlenient)]

/-- A clause for `b`, in the range up to the given offset. -/
def SwitchCase.forName (finish : Nat) : SwitchCase :=
  ⟨⟨13, finish⟩, some (.ident ⟨⟨18, 19⟩, "b", false, false⟩), []⟩

/-- There is a comment in front of the colon. With the colon in its range, the clause is recovered
with it. With a range that stops in front of the colon, a strict recovery fails, and a lenient one
puts the colon where the comment has not even begun. -/
theorem colon_of_forName :
    let scope := Scope.of "switch (a) { case b /* : */: }" none .unforgiving
    let session := Session.start scope.source
    scope.source.mode = .skipTrivia ∧
      (SwitchCase.forName 28).Written scope.source 27 ∧
      (SwitchCase.forName 27).Written scope.source 27 ∧
      (∃ node last, (SwitchCase.forName 28).recover.outcome scope session = (.ok (), last) ∧
        last.stack = session.stack.attach node ∧ node.kind = .caseClause (Token.colon.at 27)) ∧
      (∃ missing, (SwitchCase.forName 27).recover.outcome scope session =
        (.error (.missing missing), session)) ∧
      ∃ node last, (SwitchCase.forName 27).recover.outcome scope.lenient session = (.ok (), last) ∧
        last.stack = session.stack.attach node ∧ node.kind = .caseClause (Token.colon.at 19) := by
  intro scope session
  have hwhole : (SwitchCase.forName 28).Written scope.source 27 := by decide +kernel
  have hcut : (SwitchCase.forName 27).Written scope.source 27 := by decide +kernel
  refine ⟨rfl, hwhole, hcut, ?_, ?_, ?_⟩
  · obtain ⟨hfound, -, hputs⟩ := @colon_of_empty_clause _ scope _ rfl hwhole session
    have hrun : (SwitchCase.forName 28).recover.outcome scope session =
        (.ok (), ((SwitchCase.forName 28).recover.outcome scope session).2) :=
      Prod.ext (by decide +kernel) rfl
    obtain ⟨node, hstack, hkind, -⟩ :=
      hputs 27 session _ ((hfound (by decide)).symm.trans hrun)
    exact ⟨node, _, hrun, hstack, hkind⟩
  · obtain ⟨-, hmissed, -⟩ := @colon_of_empty_clause _ scope _ rfl hcut session
    exact ⟨_, ((hmissed (by decide)).1 rfl).1⟩
  · obtain ⟨-, hmissed, hputs⟩ := @colon_of_empty_clause _ scope.lenient _ rfl hcut session
    have hrun : (SwitchCase.forName 27).recover.outcome scope.lenient session =
        (.ok (), ((SwitchCase.forName 27).recover.outcome scope.lenient session).2) :=
      Prod.ext (by decide +kernel) rfl
    obtain ⟨node, hstack, hkind, -⟩ :=
      hputs 19 _ _ (((hmissed (by decide)).2 rfl).symm.trans hrun)
    exact ⟨node, _, hrun, hstack, hkind⟩

end Concretion
