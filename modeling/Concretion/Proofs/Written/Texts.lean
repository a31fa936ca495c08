import Concretion.Proofs.Written.Phrase

/-!
# The text of a phrase

The text of a phrase is made up of the texts of its parts, of its own tokens, and of what is written
between them. None of its characters opens a comment or a literal, so a phrase may stand in a page.

- `Phrase.marks_unary`, `Phrase.marks_binary` and so on: the text, part by part.
- `Phrase.plain`: a phrase has only plain marks.
-/

namespace Concretion

namespace Written

open Text Mark

/-! ## Texts of parts -/

namespace Phrase

theorem marks_unary (operator : PrefixOperator) (gap : Gap) (operand : Phrase) :
    (unary operator gap operand).marks =
      spell operator.spelling.toList ++ (spread gap ++ operand.marks) := by
  simp only [marks, lead, body, tail, List.append_assoc, List.nil_append]

theorem marks_binary (operator : InfixOperator) (left : Phrase) (before after : Gap)
    (right : Phrase) :
    (binary operator left before after right).marks = left.marks ++
      (spread before ++ (spell operator.spelling.toList ++ (spread after ++ right.marks))) := by
  simp only [marks, lead, body, tail, List.append_assoc]

theorem marks_conditional (test : Phrase) (beforeQuestion afterQuestion : Gap)
    (consequent : Phrase) (beforeColon afterColon : Gap) (alternate : Phrase) :
    (conditional test beforeQuestion afterQuestion consequent beforeColon afterColon
        alternate).marks =
      test.marks ++ (spread beforeQuestion ++ (spell "?".toList ++ (spread afterQuestion ++
        (consequent.marks ++ (spread beforeColon ++ (spell ":".toList ++
          (spread afterColon ++ alternate.marks))))))) := by
  simp only [marks, lead, body, tail, List.append_assoc, List.cons_append]
  rfl

theorem marks_call (callee : Phrase) (gap : Gap) (arguments : Arguments) :
    (call callee gap arguments).marks = callee.marks ++ (spread gap ++
      (spell "(".toList ++ (arguments.marks ++ spell ")".toList))) := by
  simp only [marks, lead, body, tail, List.append_assoc, List.cons_append, List.append_nil]
  rfl

theorem marks_access (base : Phrase) (before after : Gap) (property : Name) :
    (access base before after property).marks = base.marks ++ (spread before ++
      (spell ".".toList ++ (spread after ++ spell property.chars))) := by
  simp only [marks, lead, body, tail, List.append_assoc, List.cons_append, List.append_nil]
  rfl

theorem marks_index (base : Phrase) (before after : Gap) (inner : Phrase) (behind : Gap) :
    (index base before after inner behind).marks = base.marks ++ (spread before ++
      (spell "[".toList ++ (spread after ++ (inner.marks ++ (spread behind ++
        spell "]".toList))))) := by
  simp only [marks, lead, body, tail, List.append_assoc, List.cons_append, List.append_nil]
  rfl

theorem marks_array (elements : Elements) :
    (array elements).marks = spell "[".toList ++ (elements.marks ++ spell "]".toList) := by
  simp only [marks, lead, body, tail, List.append_nil]
  rfl

theorem marks_parens (before : Gap) (inner : Phrase) (after : Gap) :
    (parens before inner after).marks = spell "(".toList ++ (spread before ++ (inner.marks ++
      (spread after ++ spell ")".toList))) := by
  simp only [marks, lead, body, tail, List.append_assoc, List.cons_append]
  rfl

end Phrase

theorem Arguments.marks_last (before : Gap) (argument : Phrase) (after : Gap) :
    (last before argument after).marks = spread before ++ (argument.marks ++ spread after) := by
  simp only [marks, Phrase.marks, List.append_assoc]

theorem Arguments.marks_more (before : Gap) (argument : Phrase) (after : Gap) (rest : Arguments) :
    (more before argument after rest).marks = spread before ++ (argument.marks ++ (spread after ++
      (spell ",".toList ++ rest.marks))) := by
  simp only [marks, Phrase.marks, List.append_assoc]
  rfl

theorem Elements.marks_last (before : Gap) (element : Phrase) (after : Gap) :
    (last before element after).marks = spread before ++ (element.marks ++ spread after) := by
  simp only [marks, Phrase.marks, List.append_assoc]

theorem Elements.marks_more (before : Gap) (element : Phrase) (after : Gap) (rest : Elements) :
    (more before element after rest).marks = spread before ++ (element.marks ++ (spread after ++
      (spell ",".toList ++ rest.marks))) := by
  simp only [marks, Phrase.marks, List.append_assoc]
  rfl

theorem Elements.marks_hole (gap : Gap) (rest : Elements) :
    (hole gap rest).marks = spread gap ++ (spell ",".toList ++ rest.marks) := by
  simp only [marks]
  rfl

/-! ## Phrases are plain -/

/-- The characters of words are plain. -/
theorem plain_of_word {chars : List Char} (h : ∀ c ∈ chars, isWordChar c) :
    ∀ mark ∈ spell chars, mark.isPlain := by
  have hopeners : ∀ c ∈ openers, isWordChar c = false := by
    simp [openers, isWordChar, isAscii]
  refine List.forall_mem_map.2 fun c hc => ?_
  rw [isPlain, Bool.not_eq_true', Bool.eq_false_iff, Ne, List.contains_iff_mem]
  intro hmem
  have hword := h c hc
  rw [hopeners c hmem] at hword
  cases hword

theorem PrefixOperator.plain (operator : PrefixOperator) :
    ∀ mark ∈ spell operator.spelling.toList, mark.isPlain := by
  obtain ⟨operator, spelling, supported⟩ := operator
  cases operator <;> cases supported <;> decide

theorem InfixOperator.plain (operator : InfixOperator) :
    ∀ mark ∈ spell operator.spelling.toList, mark.isPlain := by
  obtain ⟨operator, spelling, form, supported, notDivide, notAssignDivide⟩ := operator
  show ∀ mark ∈ spell spelling.toList, mark.isPlain
  by_cases hdivide : operator = .divide ∨ operator = .assignDivide
  · exact (hdivide.elim notDivide notAssignDivide).elim
  · clear notDivide notAssignDivide
    cases operator <;> cases supported <;> revert hdivide <;> decide

mutual

/-- A phrase has neither characters that open comments or literals nor braces. -/
theorem Phrase.plain (phrase : Phrase) : ∀ mark ∈ phrase.marks, mark.isPlain := by
  match phrase with
  | .name word =>
    have hmarks : (Phrase.name word).marks = spell word.chars := List.append_nil _
    rw [hmarks]
    exact plain_of_word word.word
  | .number numeral =>
    have hmarks : (Phrase.number numeral).marks = spell numeral.digits := List.append_nil _
    rw [hmarks]
    refine plain_of_word fun c hc => ?_
    simp only [isWordChar, Char.isAlphanum, numeral.decimal c hc, Bool.or_true, Bool.true_or]
  | .unary operator gap operand =>
    rw [Phrase.marks_unary, List.forall_mem_append, List.forall_mem_append]
    exact ⟨operator.plain, plain_spread gap, operand.plain⟩
  | .binary operator left before after right =>
    simp only [Phrase.marks_binary, List.forall_mem_append]
    exact ⟨left.plain, plain_spread before, operator.plain, plain_spread after, right.plain⟩
  | .conditional test beforeQuestion afterQuestion consequent beforeColon afterColon alternate =>
    simp only [Phrase.marks_conditional, List.forall_mem_append]
    exact ⟨test.plain, plain_spread beforeQuestion, by decide, plain_spread afterQuestion,
      consequent.plain, plain_spread beforeColon, by decide, plain_spread afterColon,
      alternate.plain⟩
  | .call callee gap arguments =>
    simp only [Phrase.marks_call, List.forall_mem_append]
    exact ⟨callee.plain, plain_spread gap, by decide, arguments.plain, by decide⟩
  | .access base before after property =>
    simp only [Phrase.marks_access, List.forall_mem_append]
    exact ⟨base.plain, plain_spread before, by decide, plain_spread after,
      plain_of_word property.word⟩
  | .index base before after inner behind =>
    simp only [Phrase.marks_index, List.forall_mem_append]
    exact ⟨base.plain, plain_spread before, by decide, plain_spread after, inner.plain,
      plain_spread behind, by decide⟩
  | .array elements =>
    simp only [Phrase.marks_array, List.forall_mem_append]
    exact ⟨by decide, elements.plain, by decide⟩
  | .parens before inner after =>
    simp only [Phrase.marks_parens, List.forall_mem_append]
    exact ⟨by decide, plain_spread before, inner.plain, plain_spread after, by decide⟩

theorem Arguments.plain (arguments : Arguments) : ∀ mark ∈ arguments.marks, mark.isPlain := by
  match arguments with
  | .none gap => exact plain_spread gap
  | .last before argument after =>
    simp only [Arguments.marks_last, List.forall_mem_append]
    exact ⟨plain_spread before, argument.plain, plain_spread after⟩
  | .more before argument after rest =>
    simp only [Arguments.marks_more, List.forall_mem_append]
    exact ⟨plain_spread before, argument.plain, plain_spread after, by decide, rest.plain⟩

theorem Elements.plain (elements : Elements) : ∀ mark ∈ elements.marks, mark.isPlain := by
  match elements with
  | .none gap => exact plain_spread gap
  | .last before element after =>
    simp only [Elements.marks_last, List.forall_mem_append]
    exact ⟨plain_spread before, element.plain, plain_spread after⟩
  | .more before element after rest =>
    simp only [Elements.marks_more, List.forall_mem_append]
    exact ⟨plain_spread before, element.plain, plain_spread after, by decide, rest.plain⟩
  | .hole gap rest =>
    simp only [Elements.marks_hole, List.forall_mem_append]
    exact ⟨plain_spread gap, by decide, rest.plain⟩

end

end Written

end Concretion
