import Concretion.Proofs.Written.Attached
import Concretion.Proofs.Written.Page
import Concretion.Proofs.Written.Texts
import Concretion.Proofs.Written.Valid
import Concretion.Recovery.Tree

/-!
# Recovering written expressions

Wherever a phrase stands in a page, the recovery of its abstract tree attaches its concrete tree.
Each token is looked for from the end of the operand in front of it. What lies between are closing
parentheses, white space and comments, none of which has the token in it, so the first match is
the token itself.

- `Phrase.find_infix`, `Phrase.findWord_infix`: a token behind an operand is found.
- `Phrase.recovered`: the induction over phrases.
-/

namespace Concretion

namespace Written

open Text Mark Recover

/-! ## Searches behind operands -/

variable {page : Page} {offset : Nat}

namespace Phrase

variable {phrase : Phrase}

/-- Behind the last token of its body a phrase has but closing parentheses. -/
theorem not_mem_tail {d : Char} (hd : d ≠ ')') (phrase : Phrase) : .code d ∉ phrase.tail := by
  match phrase with
  | .parens before inner after =>
    have hinner := not_mem_tail hd inner
    rw [tail, List.mem_append, List.mem_append, List.mem_singleton]
    rintro ((hmem | hmem) | hmem)
    · exact hinner hmem
    · obtain ⟨piece, -, hpiece⟩ := List.mem_map.1 hmem
      cases hpiece
    · cases hmem
      exact hd rfl
  | .unary _ _ operand => exact not_mem_tail hd operand
  | .binary _ _ _ _ operand => exact not_mem_tail hd operand
  | .conditional _ _ _ _ _ _ operand => exact not_mem_tail hd operand
  | .name _ | .number _ | .call .. | .access .. | .index .. | .array _ =>
    exact List.not_mem_nil

theorem not_mem_idle {d : Char} (hd : d ≠ ')') (phrase : Phrase) (gap : Gap) :
    .code d ∉ phrase.tail ++ spread gap := by
  rw [List.mem_append]
  rintro (hmem | hmem)
  · exact phrase.not_mem_tail hd hmem
  · obtain ⟨piece, -, hpiece⟩ := List.mem_map.1 hmem
    cases hpiece

theorem rangeSpan_of_at (h : page.At offset phrase.marks) :
    page.source.rangeSpan (phrase.range offset).start (phrase.range offset).finish =
      .ok (phrase.range offset).span :=
  h.left.right.rangeSpan

variable {gap : Gap} {token : String} {d : Char} {rest : List Mark} {finish : Nat}

/-- The token behind an operand is found, however many parentheses are around the operand, and
whatever the comments between them contain. -/
theorem find_infix
    (h : page.At offset (phrase.marks ++ (spread gap ++ (spell token.toList ++ rest))))
    (hd : Page.StartsWith token d) (hparen : d ≠ ')')
    (hfinish : phrase.infixOffset offset gap < finish) :
    page.source.find token (phrase.range offset).finish finish =
      some (phrase.infixOffset offset gap) := by
  have hsize : (phrase.range offset).finish + size (phrase.tail ++ spread gap) =
      phrase.infixOffset offset gap := by
    rw [infixOffset_eq, size_append, Nat.add_assoc]
  have hmarks : phrase.marks ++ (spread gap ++ (spell token.toList ++ rest)) =
      phrase.lead ++ (phrase.body ++
        (phrase.tail ++ spread gap ++ (spell token.toList ++ rest))) := by
    simp only [marks, List.append_assoc]
  rw [hmarks] at h
  rw [← hsize] at hfinish ⊢
  exact h.right.right.find hd (phrase.not_mem_idle hparen gap) hfinish

/-- A word behind an operand is found if it is kept apart from other words. -/
theorem findWord_infix
    (h : page.At offset (phrase.marks ++ (spread gap ++ (spell token.toList ++ rest))))
    (hd : Page.StartsWith token d) (hparen : d ≠ ')')
    (hbefore : (Mark.text (phrase.marks ++ spread gap)).getLast?.any (!isWordChar ·))
    (hbehind : (Mark.text rest).head?.any (!isWordChar ·))
    (hfinish : phrase.infixOffset offset gap < finish) :
    page.source.findWord token (phrase.range offset).finish finish =
      some (phrase.infixOffset offset gap) := by
  have hsize : offset + size (phrase.lead ++ phrase.body) + size (phrase.tail ++ spread gap) =
      phrase.infixOffset offset gap := by
    simp only [infixOffset_eq, size_append, range]
    omega
  have hstart : (phrase.range offset).finish = offset + size (phrase.lead ++ phrase.body) := by
    rw [size_append, range, Nat.add_assoc]
  have hmarks : phrase.marks ++ (spread gap ++ (spell token.toList ++ rest)) =
      phrase.lead ++ phrase.body ++
        (phrase.tail ++ spread gap ++ (spell token.toList ++ rest)) := by
    simp only [marks, List.append_assoc]
  have hfront : phrase.marks ++ spread gap =
      phrase.lead ++ phrase.body ++ (phrase.tail ++ spread gap) := by
    simp only [marks, List.append_assoc]
  rw [hmarks] at h
  rw [hfront] at hbefore
  rw [← hsize] at hfinish ⊢
  rw [hstart]
  exact h.findWord hd (phrase.not_mem_idle hparen gap) hbefore hbehind hfinish

end Phrase

/-! ## Abstract trees -/

namespace Phrase

theorem range_expr (phrase : Phrase) (offset : Nat) :
    (phrase.expr offset).range = phrase.range offset := by
  match phrase with
  | .parens before inner after =>
    rw [range_parens, expr]
    exact inner.range_expr _
  | .name _ | .number _ | .unary .. | .binary .. | .conditional .. | .call .. | .access ..
  | .index .. | .array _ => rfl

theorem operator_expr (phrase : Phrase) (offset : Nat) :
    (phrase.expr offset).operator? = phrase.operator? := by
  match phrase with
  | .parens before inner after =>
    rw [operator?, expr]
    exact inner.operator_expr _
  | .name _ | .number _ | .unary .. | .binary .. | .conditional .. | .call .. | .access ..
  | .index .. | .array _ => rfl

end Phrase

/-! ## Operators -/

/-- A token that is a word is only searched for as a word. -/
theorem ofOperator_of_keyword {spelling : String}
    (h : (Token.ofOperator spelling).kind = .keyword) :
    isAlphabetic spelling ∧ Token.ofOperator spelling = .keyword spelling := by
  by_cases hword : isAlphabetic spelling
  · refine ⟨hword, ?_⟩
    rw [Token.ofOperator] at h ⊢
    split at h
    · cases h
    · split at h
      · cases h
      · next hellipsis hcomma => rw [if_neg hellipsis, if_neg hcomma, if_pos hword]
  · rw [Token.ofOperator, if_neg hword] at h
    split at h
    · cases h
    · split at h <;> cases h

theorem InfixOperator.startsWith (operator : InfixOperator) :
    ∃ d, Page.StartsWith operator.spelling d ∧ d ≠ ')' := by
  obtain ⟨operator, spelling, form, supported, noDivision⟩ := operator
  show ∃ d, Page.StartsWith spelling d ∧ d ≠ ')'
  clear noDivision
  cases operator <;> cases supported <;> exact ⟨_, ⟨rfl, rfl, rfl⟩, by decide⟩

variable {scope : Scope}

/-- The symbol of an operator between two operands. -/
theorem InfixOperator.between (hsource : scope.source = page.source) (operator : InfixOperator)
    {left : Phrase} {gap : Gap} {rest : List Mark} {finish : Nat}
    (h : page.At offset (left.marks ++
      (spread gap ++ (spell operator.spelling.toList ++ rest))))
    (hapart : operator.isApart (left.marks ++ spread gap) rest)
    (hfinish : left.infixOffset offset gap < finish) (stack : Stack) :
    Yields scope stack
      (Rule.operatorBetween operator.spelling (left.range offset).finish finish)
      ((Token.ofOperator operator.spelling).symbolAt (left.infixOffset offset gap)) stack := by
  obtain ⟨d, hd, hparen⟩ := operator.startsWith
  rw [Rule.operatorBetween]
  by_cases hkind : (Token.ofOperator operator.spelling).kind = .keyword
  · obtain ⟨hword, htoken⟩ := ofOperator_of_keyword hkind
    rw [InfixOperator.isApart, InfixOperator.isWord, hword, Bool.not_true, Bool.false_or,
      Bool.and_eq_true] at hapart
    have hfound := Phrase.findWord_infix h hd hparen hapart.1 hapart.2 hfinish
    rw [← hsource] at hfound
    rw [if_pos (beq_iff_eq.2 hkind), htoken]
    exact .findWord hfound
  · have hfound := Phrase.find_infix h hd hparen hfinish
    rw [← hsource, ← Token.text_ofOperator operator.spelling] at hfound
    rw [if_neg (by rwa [beq_iff_eq])]
    exact .find hfound

/-! ## Phrases are recovered -/

theorem range_fragment (phrase : Phrase) (offset : Nat) :
    ((phrase.expr offset).fragmentOf (phrase.expr offset).recover).range = phrase.range offset :=
  phrase.range_expr offset

/-- The first argument, if there is one, is behind the opening parenthesis. -/
theorem Arguments.le_head (arguments : Arguments) {opening offset finish : Nat}
    (h : opening < offset) (hfinish : opening < finish) :
    opening < (((argumentFragments (arguments.exprs offset)).head?.map (·.range.start)).getD
      finish) := by
  cases arguments with
  | none gap => exact hfinish
  | last before argument after =>
    have hstart := argument.le_start (offset + size (spread before))
    rw [← range_fragment argument] at hstart
    exact Nat.lt_of_lt_of_le (by omega) hstart
  | more before argument after rest =>
    have hstart := argument.le_start (offset + size (spread before))
    rw [← range_fragment argument] at hstart
    exact Nat.lt_of_lt_of_le (by omega) hstart

/-! ### Phrases form by form -/

/-- Wherever the phrase stands in the page, its abstract tree is recovered as its concrete tree. -/
def Phrase.IsRecovered (scope : Scope) (page : Page) (phrase : Phrase) : Prop :=
  ∀ {offset : Nat}, page.At offset phrase.marks → phrase.isApart →
    Attaches scope (phrase.expr offset).recover (phrase.node offset)

/-- The same of all arguments. -/
def Arguments.AreRecovered (scope : Scope) (page : Page) (arguments : Arguments) : Prop :=
  ∀ {offset : Nat}, page.At offset arguments.marks → arguments.isApart →
    List.Forall₂ (fun argument node => Attaches scope argument.build node)
      (argumentFragments (arguments.exprs offset)) (arguments.nodes offset)

namespace Phrase

theorem isRecovered_name (hsource : scope.source = page.source) (word : Name) :
    (name word).IsRecovered scope page := by
  intro offset h _
  have hspan := rangeSpan_of_at h
  rw [← hsource] at hspan
  have hnode : (Phrase.name word).node offset =
      .leaf (.identifier ⟨.identifier, ((Phrase.name word).range offset).span, word.text⟩)
        ((Phrase.name word).range offset).span := by
    simp only [Phrase.node, Name.node, Phrase.range, Phrase.lead, Phrase.body, size_nil,
      size_spell, Nat.add_zero]
  rw [hnode]
  exact .ident hspan

theorem isRecovered_number (hsource : scope.source = page.source) (numeral : Numeral) :
    (number numeral).IsRecovered scope page := by
  intro offset h _
  have hspan := rangeSpan_of_at h
  rw [← hsource] at hspan
  refine Attaches.number hspan ?_ ?_ numeral.nonempty numeral.decimal
  · have htext := h.left.right.slice
    rw [Phrase.body, text_spell] at htext
    rw [hsource]
    exact htext
  · simp only [Phrase.range, Phrase.body, size_spell]

theorem isRecovered_unary (hsource : scope.source = page.source) (operator : PrefixOperator)
    (gap : Gap) {operand : Phrase} (hoperand : operand.IsRecovered scope page) :
    (unary operator gap operand).IsRecovered scope page := by
  intro offset h hapart
  have hspan := rangeSpan_of_at h
  have hcover := ((unary operator gap operand).solid offset).cover
  rw [← hsource] at hspan
  rw [Phrase.marks_unary] at h
  have htoken := h.left.slice_token
  rw [← Token.text_ofOperator operator.spelling, ← hsource] at htoken
  rw [Phrase.range_unary] at hspan
  simp only [Phrase.node, Phrase.range_unary] at hcover
  simp only [Phrase.node, Phrase.range_unary, Phrase.expr, Expr.recover]
  refine Attaches.unary operator.supported hspan htoken
    (hoperand h.right.right hapart) ?_ hcover
  simp only [Expr.fragmentOf, Phrase.operator_expr]

theorem isRecovered_binary (hsource : scope.source = page.source) (operator : InfixOperator)
    (before after : Gap) {left right : Phrase} (hl : left.IsRecovered scope page)
    (hr : right.IsRecovered scope page) :
    (binary operator left before after right).IsRecovered scope page := by
  intro offset h hapart
  have hspan := rangeSpan_of_at h
  have hcover := ((binary operator left before after right).solid offset).cover
  rw [← hsource] at hspan
  rw [Phrase.marks_binary] at h
  simp only [Phrase.isApart, Bool.and_eq_true] at hapart
  obtain ⟨⟨hword, hleft⟩, hright⟩ := hapart
  have hpos := operator.size_pos
  have hstart := right.le_start
    (left.infixOffset offset before + size (spell operator.spelling.toList) + size (spread after))
  have hbetween := operator.between hsource h hword (Nat.lt_of_lt_of_le (by omega) hstart)
  rw [← range_fragment left, ← range_fragment right] at hbetween
  refine Attaches.binary operator.supported hspan hbetween (hl h.left hleft)
    (hr h.right.right.right.right hright) ?_ hcover
  simp only [Phrase.node, Expr.fragmentOf, Phrase.operator_expr]

theorem isRecovered_conditional (hsource : scope.source = page.source)
    (beforeQuestion afterQuestion beforeColon afterColon : Gap)
    {test consequent alternate : Phrase} (ht : test.IsRecovered scope page)
    (hc : consequent.IsRecovered scope page) (ha : alternate.IsRecovered scope page) :
    (conditional test beforeQuestion afterQuestion consequent beforeColon afterColon
      alternate).IsRecovered scope page := by
  intro offset h hapart
  have hspan := rangeSpan_of_at h
  have hcover := ((conditional test beforeQuestion afterQuestion consequent beforeColon
    afterColon alternate).solid offset).cover
  rw [← hsource] at hspan
  rw [Phrase.marks_conditional] at h
  simp only [Phrase.isApart, Bool.and_eq_true] at hapart
  obtain ⟨⟨htest, hconsequent⟩, halternate⟩ := hapart
  have hsecond : page.At
      (test.infixOffset offset beforeQuestion + 1 + size (spread afterQuestion))
      (consequent.marks ++ _) := h.right.right.right.right
  have hconsequentStart := consequent.le_start
    (test.infixOffset offset beforeQuestion + 1 + size (spread afterQuestion))
  have halternateStart := alternate.le_start (consequent.infixOffset
    (test.infixOffset offset beforeQuestion + 1 + size (spread afterQuestion)) beforeColon + 1 +
      size (spread afterColon))
  have hquestion := Phrase.find_infix h (d := '?') ⟨rfl, rfl, rfl⟩ (by decide)
    (Nat.lt_of_lt_of_le (by omega) hconsequentStart)
  have hcolon := Phrase.find_infix hsecond (d := ':') ⟨rfl, rfl, rfl⟩ (by decide)
    (Nat.lt_of_lt_of_le (by omega) halternateStart)
  rw [← hsource, ← range_fragment test, ← range_fragment consequent] at hquestion
  rw [← hsource, ← range_fragment consequent, ← range_fragment alternate] at hcolon
  refine Attaches.conditional hspan hquestion hcolon (ht h.left htest)
    (hc hsecond.left hconsequent)
    (ha hsecond.right.right.right.right halternate) ?_ hcover
  simp only [Phrase.node, Expr.fragmentOf, Phrase.operator_expr]

theorem isRecovered_call (hsource : scope.source = page.source) (gap : Gap) {callee : Phrase}
    {arguments : Arguments} (hc : callee.IsRecovered scope page)
    (ha : arguments.AreRecovered scope page) :
    (call callee gap arguments).IsRecovered scope page := by
  intro offset h hapart
  have hspan := rangeSpan_of_at h
  have hcover := ((call callee gap arguments).solid offset).cover
  rw [← hsource] at hspan
  rw [Phrase.marks_call] at h
  simp only [Phrase.isApart, Bool.and_eq_true] at hapart
  have harguments : page.At (callee.infixOffset offset gap + 1)
      (arguments.marks ++ spell ")".toList) := h.right.right.right
  have hrange := Phrase.range_call offset callee gap arguments
  have hfinish : callee.infixOffset offset gap <
      ((Phrase.call callee gap arguments).range offset).finish := by
    rw [hrange]
    dsimp only
    omega
  have hopening := Phrase.find_infix h (d := '(') ⟨rfl, rfl, rfl⟩ (by decide)
    (arguments.le_head (Nat.lt_succ_self _) hfinish)
  have hclosing := harguments.right.slice_token
  rw [← hsource] at hclosing
  rw [← hsource, ← range_fragment callee] at hopening
  refine Attaches.call hspan hopening hclosing (by omega) ?_
    (hc h.left hapart.1)
    (ha harguments.left hapart.2) rfl (arguments.solid _).cover ?_ hcover
  · rw [hrange]
  · simp only [Phrase.node, Expr.fragmentOf, Phrase.operator_expr]

theorem isRecovered_access (hsource : scope.source = page.source) (before after : Gap)
    (property : Name) {base : Phrase} (hb : base.IsRecovered scope page) :
    (access base before after property).IsRecovered scope page := by
  intro offset h hapart
  have hspan := rangeSpan_of_at h
  have hcover := ((access base before after property).solid offset).cover
  rw [← hsource] at hspan
  rw [Phrase.marks_access] at h
  have hrange := Phrase.range_access offset base before after property
  have hbefore := base.finish_le_infixOffset offset before
  have hname : page.At (base.infixOffset offset before + 1 + size (spread after))
      (spell property.chars) := h.right.right.right.right
  have hinner := hname.rangeSpan
  rw [size_spell, ← hsource] at hinner
  have hwidth : property.text.utf8ByteSize = width property.chars := by
    rw [utf8ByteSize_eq, Name.text, String.toList_ofList]
  have hstart : base.infixOffset offset before + 1 + size (spread after) =
      max (base.infixOffset offset before + 1 + size (spread after) + width property.chars -
        property.text.utf8ByteSize) (base.range offset).finish := by
    rw [hwidth]
    omega
  have hdot := Phrase.find_infix h (d := '.') ⟨rfl, rfl, rfl⟩ (by decide)
    (Nat.lt_add_right (size (spread after)) (Nat.lt_succ_self _))
  rw [← range_fragment base] at hstart
  rw [← hsource, ← range_fragment base] at hdot
  refine Attaches.access hspan (congrArg Range.finish hrange) hstart hdot hinner
    (hb h.left hapart) ?_ hcover
  simp only [Phrase.node, Expr.fragmentOf, Phrase.operator_expr]
  rfl

theorem isRecovered_index (hsource : scope.source = page.source) (before after behind : Gap)
    {base inner : Phrase} (hb : base.IsRecovered scope page)
    (hi : inner.IsRecovered scope page) :
    (index base before after inner behind).IsRecovered scope page := by
  intro offset h hapart
  have hspan := rangeSpan_of_at h
  have hcover := ((index base before after inner behind).solid offset).cover
  rw [← hsource] at hspan
  rw [Phrase.marks_index] at h
  simp only [Phrase.isApart, Bool.and_eq_true] at hapart
  have hinner : page.At (base.infixOffset offset before + 1 + size (spread after))
      (inner.marks ++ _) := h.right.right.right.right
  have hstart := inner.le_start (base.infixOffset offset before + 1 + size (spread after))
  have hbehind := inner.finish_le_infixOffset
    (base.infixOffset offset before + 1 + size (spread after)) behind
  have hopening := Phrase.find_infix h (d := '[') ⟨rfl, rfl, rfl⟩ (by decide)
    (Nat.lt_of_lt_of_le (by omega) hstart)
  have hclosing : page.source.slice
      (inner.infixOffset (base.infixOffset offset before + 1 + size (spread after)) behind)
      (inner.infixOffset (base.infixOffset offset before + 1 + size (spread after)) behind + 1) =
        some "]" :=
    hinner.right.right.slice_token
  rw [← hsource] at hclosing
  rw [← hsource, ← range_fragment base, ← range_fragment inner] at hopening
  rw [← range_fragment inner] at hbehind
  refine Attaches.index hspan hopening hclosing hbehind ?_
    (hb h.left hapart.1) (hi hinner.left hapart.2) ?_ hcover
  · rw [Phrase.range_index]
  · simp only [Phrase.node, Expr.fragmentOf, Phrase.operator_expr]

end Phrase

/-! ### All phrases -/

mutual

/-- Wherever a phrase stands, its abstract tree is recovered as its concrete tree. -/
theorem Phrase.recovered (hsource : scope.source = page.source) (phrase : Phrase) {offset : Nat}
    (h : page.At offset phrase.marks) (hapart : phrase.isApart) :
    Attaches scope (phrase.expr offset).recover (phrase.node offset) := by
  match phrase with
  | .name word => exact Phrase.isRecovered_name hsource word h hapart
  | .number numeral => exact Phrase.isRecovered_number hsource numeral h hapart
  | .unary operator gap operand =>
    exact Phrase.isRecovered_unary hsource operator gap
      (fun h hapart => operand.recovered hsource h hapart) h hapart
  | .binary operator left before after right =>
    exact Phrase.isRecovered_binary hsource operator before after
      (fun h hapart => left.recovered hsource h hapart)
      (fun h hapart => right.recovered hsource h hapart) h hapart
  | .conditional test beforeQuestion afterQuestion consequent beforeColon afterColon alternate =>
    exact Phrase.isRecovered_conditional hsource beforeQuestion afterQuestion beforeColon afterColon
      (fun h hapart => test.recovered hsource h hapart)
      (fun h hapart => consequent.recovered hsource h hapart)
      (fun h hapart => alternate.recovered hsource h hapart) h hapart
  | .call callee gap arguments =>
    exact Phrase.isRecovered_call hsource gap
      (fun h hapart => callee.recovered hsource h hapart)
      (fun h hapart => arguments.recovered hsource h hapart) h hapart
  | .access base before after property =>
    exact Phrase.isRecovered_access hsource before after property
      (fun h hapart => base.recovered hsource h hapart) h hapart
  | .index base before after inner behind =>
    exact Phrase.isRecovered_index hsource before after behind
      (fun h hapart => base.recovered hsource h hapart)
      (fun h hapart => inner.recovered hsource h hapart) h hapart
  | .array elements =>
    have hspan := Phrase.rangeSpan_of_at h
    have hcover := ((Phrase.array elements).solid offset).cover
    rw [← hsource] at hspan
    rw [Phrase.marks_array] at h
    have hopening := h.left.slice_token
    have hclosing : page.source.slice (offset + 1 + size elements.marks)
        (offset + 1 + size elements.marks + 1) = some "]" := h.right.right.slice_token
    rw [← hsource] at hopening hclosing
    have helements : page.At (offset + 1) elements.marks := h.right.left
    rw [Phrase.range_array] at hspan
    simp only [Phrase.node, Phrase.range_array] at hcover
    simp only [Phrase.node, Phrase.range_array, Phrase.expr, Expr.recover]
    exact Attaches.array hspan hopening hclosing (by dsimp only; omega) rfl
      (elements.recovered hsource helements hapart offset) rfl hcover
  | .parens before inner after =>
    rw [Phrase.marks_parens] at h
    exact inner.recovered hsource h.right.right.left hapart

theorem Arguments.recovered (hsource : scope.source = page.source) (arguments : Arguments)
    {offset : Nat} (h : page.At offset arguments.marks) (hapart : arguments.isApart) :
    List.Forall₂ (fun argument node => Attaches scope argument.build node)
      (argumentFragments (arguments.exprs offset)) (arguments.nodes offset) := by
  match arguments with
  | .none gap => exact .nil
  | .last before argument after =>
    rw [Arguments.marks_last] at h
    exact .cons (argument.recovered hsource h.right.left hapart) .nil
  | .more before argument after rest =>
    rw [Arguments.marks_more] at h
    rw [Arguments.isApart, Bool.and_eq_true] at hapart
    exact .cons (argument.recovered hsource h.right.left hapart.1)
      (rest.recovered hsource h.right.right.right.right hapart.2)

theorem Elements.recovered (hsource : scope.source = page.source) (elements : Elements)
    {offset : Nat} (h : page.At offset elements.marks) (hapart : elements.isApart) (last : Nat) :
    AttachesElements scope last (elementFragments (elements.exprs offset))
      (elements.nodes offset last) := by
  match elements with
  | .none gap => exact .nil
  | .last before element after =>
    rw [Elements.marks_last] at h
    exact .element (element.recovered hsource h.right.left hapart) .nil
  | .more before element after rest =>
    rw [Elements.marks_more] at h
    rw [Elements.isApart, Bool.and_eq_true] at hapart
    have hrest := rest.recovered hsource h.right.right.right.right hapart.2
    refine .element (element.recovered hsource h.right.left hapart.1) ?_
    rw [(element.solid _).last]
    exact hrest _
  | .hole gap rest =>
    rw [Elements.marks_hole] at h
    exact .hole (rest.recovered hsource h.right.right hapart last)

end

end Written

end Concretion
