import Concretion.Proofs.Checked
import Concretion.Proofs.Runs

/-!
# Recovery goes wrong on no input

Whatever the tree says about places, a recovery comes to a tree or to a failure that is meant to be
one. No span with its ends in the wrong order is made on the way, nothing is looked up where there
is nothing, and no number is taken from a smaller one.
-/

namespace Concretion

open Recover

namespace Failure

/-- The stretch of text that a failure is about, with its length as a difference. -/
def checkedLabel : Failure → Option (Option Label)
  | unsupportedUnary _ span | unsupportedBinary _ span => span.checkedLabel.map some
  | missing token => some token.label
  | shape _ _ span => span.elim (some none) (·.checkedLabel.map some)
  | badRange .. | reversed _ => some none

theorem checkedLabel_eq {failure : Failure} (h : failure.Ordered) :
    failure.checkedLabel = some failure.label := by
  cases failure with
  | unsupportedUnary _ span | unsupportedBinary _ span =>
    rw [checkedLabel, Span.checkedLabel_eq h]
    rfl
  | shape _ _ span =>
    cases span with
    | none => rfl
    | some span =>
      rw [checkedLabel, Option.elim_some, Span.checkedLabel_eq (h span rfl)]
      rfl
  | missing | badRange | reversed => rfl

end Failure

/-- The spans of a tree that has been recovered are in order, and so are those that a failure
reports. A failure about a span that is not in order does not come up. -/
theorem Program.tidy_build (program : Program) (verify : Bool) (scope : Scope) :
    Tidy (fun concrete => concrete.root.Ordered)
      ((program.build verify).outcome scope (.initial scope program.uri)) := by
  rw [build_eq]
  have htidy := (program.sound_recover True).tidy trivial scope _
    (Session.ordered_initial scope program.uri)
  rcases hrun : program.recover.outcome scope (.initial scope program.uri) with ⟨failure | _, later⟩
  · rw [outcome_bind_error hrun]
    rw [hrun] at htidy
    exact ⟨htidy.stack, fun _ h => (by cases h),
      fun _ h => Except.error.inj h ▸ htidy.failure _ rfl⟩
  · obtain ⟨hopened, hshelf⟩ := program.done_of_recover hrun
    obtain ⟨last, hstack, -, -, hconclude⟩ := program.outcome_conclude verify hopened hshelf
    rw [outcome_bind_ok hrun, hconclude]
    rw [hrun] at htidy
    refine ⟨hstack ▸ htidy.stack, fun concrete h => ?_, fun failure h => ?_⟩
    · rw [Concrete.eq_of_verdict_ok h]
      exact htidy.stack.root
    · obtain ⟨violation, rfl⟩ := Concrete.of_verdict_error h
      exact fun _ hnone => by cases hnone

/-- When the parts of a `try` statement have been put in order there are three of them. -/
theorem children_of_tryCatch (scope : Scope) (session : Session) :
    match Recover.outcome (do expectChildren 3; reorder [1, 2, 0]) scope session with
    | (.ok _, later) => later.stack.children.length = 3
    | (.error _, _) => True := by
  have hexpect : (expectChildren 3).outcome scope session =
      if session.stack.children.length != 3 then
        (.error (session.stack.fault (.childCount 3 session.stack.children.length)), session)
      else (.ok (), session) := by
    rw [expectChildren, outcome_bind_ok (outcome_getStack scope session)]
    show Recover.outcome (if session.stack.children.length != 3 then _ else _) scope session = _
    split <;> rfl
  -- Any other number of children is refused before they are reordered.
  by_cases hcount : session.stack.children.length = 3
  · rw [hcount] at hexpect
    rw [outcome_bind_ok hexpect]
    obtain ⟨first, second, third, hchildren⟩ := List.length_eq_three.1 hcount
    have hreorder : session.stack.reorder [1, 2, 0] =
        .ok (session.stack.setChildren [second, third, first]) := by
      rw [Stack.reorder_eq, hchildren]
      rfl
    have hrun : (reorder [1, 2, 0]).outcome scope session =
        (.ok (), { session with stack := session.stack.setChildren [second, third, first] }) := by
      rw [reorder, outcome_edit, hreorder]
    rw [hrun]
    exact congrArg List.length (Stack.children_setChildren _ _)
  · rw [if_pos (by simpa using hcount)] at hexpect
    rw [outcome_bind_error hexpect]
    trivial

/-- What is cut off in front of a number is what is missing in it, and a number that is left has a
last byte. -/
theorem Text.trimmed_places (chars : List Char) (start : Nat) :
    Checked.difference (width chars) (width (chars.dropWhile isBlank)) = some (trimmed chars).1 ∧
      ((trimmed chars).2.isEmpty ∨
        Checked.difference (start + width (trimmed chars).2) 1 =
          some (start + width (trimmed chars).2 - 1)) := by
  have hwidth := width_takeWhile_add isBlank chars
  constructor
  · rw [Checked.difference_eq (by omega), ← hwidth, Nat.add_sub_cancel]
    rfl
  · by_cases hempty : (trimmed chars).2 = []
    · exact .inl (List.isEmpty_iff.2 hempty)
    · have hpos := width_pos hempty
      exact .inr (Checked.difference_eq (by omega))

/-- Recovery comes to a tree with all spans in order, or to a failure that says what is wrong with
the abstract tree and the text. Every byte that the scan and the searches look up is there, every
child that is moved is there, and no difference is negative. In the order of the statement these are
the labels of failures, the searches of a text and the loops of the scan, the bytes that a step of
the scan begins with, judges by and reads up to, the children of an open node and of a `try`
statement, the last byte of a symbol and of a trimmed text, and the number of statements in front of
those that move into the header of a loop. -/
theorem recovery_is_safe :
    (∀ (program : Program) (text : String) (settings : Settings),
      match (program.concretise text settings).result with
      | .ok concrete => concrete.root.Ordered
      | .error failure => failure.Ordered ∧ failure.checkedLabel = some failure.label) ∧
    (∀ source : Source, source.Guarded) ∧
    (∀ (bytes before lead rest : List UInt8) (depths : List Nat) (b : UInt8),
      Scan.Reached bytes before lead depths (b :: rest) →
        bytes[before.length]? = some b ∧
        (∀ last ∈ lead.head?, bytes[lead.length - 1]? = some last) ∧
        before.length + 1 + (Scan.step lead depths b rest).extra ≤ bytes.length) ∧
    (∀ stack : Stack, stack.Guarded) ∧
    (∀ (scope : Scope) (session : Session),
      match Recover.outcome (do expectChildren 3; reorder [1, 2, 0]) scope session with
      | (.ok _, later) => later.stack.children.length = 3
      | (.error _, _) => True) ∧
    (∀ (token : Token) (start : Nat), Checked.difference (start + max token.length 1) 1 =
      some (start + max token.length 1 - 1)) ∧
    (∀ (chars : List Char) (start : Nat),
      Checked.difference (Text.width chars) (Text.width (chars.dropWhile Text.isBlank)) =
          some (Text.trimmed chars).1 ∧
        ((Text.trimmed chars).2.isEmpty ∨
          Checked.difference (start + Text.width (Text.trimmed chars).2) 1 =
            some (start + Text.width (Text.trimmed chars).2 - 1))) ∧
    ∀ (loop : LoopFragment) (rest : List StatementFragment),
      let moved := (rest.reverse.takeWhile (Rule.inHeader loop)).length
      Checked.difference rest.length moved = some (rest.length - moved) := by
  refine ⟨?_, Source.guarded, ?_, Stack.guarded, children_of_tryCatch, ?_, Text.trimmed_places, ?_⟩
  · intro program text settings
    have htidy := program.tidy_build settings.verify (.of text program.info settings)
    split
    · next concrete h => exact htidy.value concrete h
    · next failure h =>
      have hordered := htidy.failure failure h
      exact ⟨hordered, Failure.checkedLabel_eq hordered⟩
  · exact fun bytes before lead rest depths b h => h.places
  · exact fun token start => Checked.difference_eq (by omega)
  · intro loop rest moved
    refine Checked.difference_eq ?_
    have hle := (List.takeWhile_prefix (l := rest.reverse) (Rule.inHeader loop)).length_le
    rwa [List.length_reverse] at hle

end Concretion
