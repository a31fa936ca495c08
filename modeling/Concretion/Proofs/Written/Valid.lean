import Concretion.Proofs.Layout
import Concretion.Proofs.Written.Phrase

/-!
# The tree of a phrase is well laid out

Tokens of a phrase are written one behind the other, so that the nodes of its parts lie apart and
inside of its own node, and so do its symbols.

- `Node.Solid`: a node that passes the check and takes up just a given range.
- `Phrase.solid`: the tree of a phrase does, with the range of its body.
-/

namespace Concretion

namespace Node

/-! ## Trees that pass the check -/

/-- A child that is no placeholder, next to the ones before. -/
theorem checkChildren_cons {kind : NodeKind} {span : Span} {previous solid : Option Span}
    {child : Node} {rest : List Node} (hinside : span.contains child.span)
    (hprevious : ∀ other ∈ previous, other.start ≤ child.span.start)
    (hsolid : ∀ other ∈ solid, other.last < child.span.start)
    (hplaceholder : child.isPlaceholder = false) (hcheck : child.check = .ok ())
    (hrest : checkChildren kind span (some child.span) (some child.span) rest = .ok ()) :
    checkChildren kind span previous solid (child :: rest) = .ok () := by
  rw [checkChildren_cons_eq_ok_iff, hplaceholder]
  exact ⟨checkChild_ok hinside hprevious (.inr hsolid), hcheck, hrest⟩

/-- The placeholder of an element left out. -/
theorem checkChildren_elision {kind : NodeKind} {span : Span} {previous solid : Option Span}
    {offset : Nat} {rest : List Node} (hinside : span.contains (Span.point offset))
    (hprevious : ∀ other ∈ previous, other.start ≤ offset)
    (hrest : checkChildren kind span (some (Span.point offset)) solid rest = .ok ()) :
    checkChildren kind span previous solid (elision offset :: rest) = .ok () := by
  have hcheck : (elision offset).check = .ok () := by
    refine check_eq_ok_iff.2 ⟨checkSelf_eq_ok_iff.2 ⟨fun _ => rfl, ?_, List.forall_mem_nil _⟩, rfl⟩
    rintro expected ⟨⟩
  exact checkChildren_cons_eq_ok_iff.2
    ⟨checkChild_ok hinside hprevious (.inl rfl), hcheck, hrest⟩

/-! ## Nodes that take up a range -/

/-- A node that passes the check, and takes up just the given range. -/
structure Solid (node : Node) (range : Range) : Prop where
  nonempty : range.start < range.finish
  span : node.span = range.span
  isPlaceholder : node.isPlaceholder = false
  check : node.check = .ok ()

/-- The span, if there is one, ends in front of the offset. -/
def EndsBefore (offset : Nat) (span : Option Span) : Prop :=
  ∀ other ∈ span, other.start ≤ other.last ∧ other.last < offset

theorem endsBefore_none (offset : Nat) : EndsBefore offset none := fun _ h => by cases h

theorem EndsBefore.mono {offset later : Nat} {span : Option Span} (h : EndsBefore offset span)
    (hle : offset ≤ later) : EndsBefore later span := by
  intro other hother
  have := h other hother
  omega

theorem endsBefore_range {range : Range} {offset : Nat} (h : range.start < range.finish)
    (ho : range.finish ≤ offset) : EndsBefore offset (some range.span) := by
  intro other hother
  cases hother
  simp only [Range.span, Span.ofBounds]
  omega

theorem contains_range {range inner : Range} (h : inner.start < inner.finish)
    (hs : range.start ≤ inner.start) (hf : inner.finish ≤ range.finish) :
    range.span.contains inner.span := by
  rw [Span.contains_iff]
  simp only [Range.span, Span.ofBounds]
  omega

theorem checkChildren_solid {kind : NodeKind} {range inner : Range} {previous solid : Option Span}
    {child : Node} {rest : List Node} (h : child.Solid inner) (hs : range.start ≤ inner.start)
    (hf : inner.finish ≤ range.finish) (hprevious : EndsBefore inner.start previous)
    (hsolid : EndsBefore inner.start solid)
    (hrest : checkChildren kind range.span (some inner.span) (some inner.span) rest = .ok ()) :
    checkChildren kind range.span previous solid (child :: rest) = .ok () := by
  have hstart : child.span.start = inner.start := congrArg Span.start h.span
  refine checkChildren_cons ?_ (fun other hother => ?_) (fun other hother => ?_) h.isPlaceholder
    h.check ?_
  · rw [h.span]
    exact contains_range h.nonempty hs hf
  · have := hprevious other hother
    omega
  · have := hsolid other hother
    omega
  · rw [h.span]
    exact hrest

/-- Two children that lie apart. -/
theorem checkChildren_pair {kind : NodeKind} {range first second : Range} {a b : Node}
    (ha : a.Solid first) (hb : b.Solid second) (hs : range.start ≤ first.start)
    (hapart : first.finish ≤ second.start) (hf : second.finish ≤ range.finish) :
    checkChildren kind range.span none none [a, b] = .ok () := by
  have hfirst := ha.nonempty
  have hsecond := hb.nonempty
  have hends : EndsBefore second.start (some first.span) := endsBefore_range hfirst hapart
  refine checkChildren_solid ha hs (by omega) (endsBefore_none _) (endsBefore_none _) ?_
  exact checkChildren_solid hb (by omega) hf hends hends rfl

theorem solid_branch {kind : NodeKind} {range : Range} {children : List Node}
    (hrange : range.start < range.finish) (hkind : kind.isPlaceholder = false)
    (harity : kind.arity? = none)
    (hsymbols : ∀ symbol ∈ kind.symbols,
      range.start ≤ symbol.span.start ∧ symbol.span.last < range.finish)
    (hchildren : checkChildren kind range.span none none children = .ok ()) :
    (branch kind range.span children).Solid range where
  nonempty := hrange
  span := rfl
  isPlaceholder := hkind
  check := by
    refine (check_branch_iff hkind harity).2 ⟨fun symbol hsymbol => ?_, hchildren⟩
    obtain ⟨hs, hf⟩ := hsymbols symbol hsymbol
    rw [Span.contains_iff]
    simp only [Range.span, Span.ofBounds]
    omega

/-- A node without children that is all token. -/
theorem solid_leaf {kind : NodeKind} {range : Range} (hrange : range.start < range.finish)
    (hkind : kind.isPlaceholder = false) (harity : kind.arity? = none)
    (hsymbols : ∀ symbol ∈ kind.symbols, symbol.span = range.span) :
    (leaf kind range.span).Solid range := by
  refine solid_branch hrange hkind harity (fun symbol hsymbol => ?_) rfl
  rw [hsymbols symbol hsymbol]
  simp only [Range.span, Span.ofBounds]
  omega

/-- It makes no difference to the check who owns a semicolon. -/
theorem Solid.withSemicolon {node : Node} {range : Range} (h : node.Solid range) (flag : Bool) :
    Node.Solid { node with ownsSemicolon := flag } range := by
  obtain ⟨kind, span, children, ownsSemicolon⟩ := node
  exact ⟨h.nonempty, h.span, h.isPlaceholder, h.check⟩

theorem Solid.grouped {node : Node} {range : Range} (h : node.Solid range) :
    node.grouped.Solid range := by
  have hgroup : (branch .group range.span [node]).Solid range :=
    solid_branch h.nonempty rfl rfl (List.forall_mem_nil _)
      (checkChildren_solid h (Nat.le_refl _) (Nat.le_refl _) (endsBefore_none _)
        (endsBefore_none _) rfl)
  rw [Node.grouped, h.span]
  exact hgroup

theorem Solid.beside {node : Node} {range : Range} (h : node.Solid range)
    (inner : Option Operator) (outer : Operator) (side : Operator.Side) :
    (node.beside inner outer side).Solid range := by
  rw [Node.beside]
  split
  · exact h.grouped
  · exact h

theorem Solid.asObject {node : Node} {range : Range} (h : node.Solid range)
    (inner : Option Operator) : (node.asObject inner).Solid range := by
  rw [Node.asObject]
  split
  · exact h.grouped
  · exact h

theorem Solid.last {node : Node} {range : Range} (h : node.Solid range) :
    node.last = range.finish - 1 := by
  have hrange := h.nonempty
  rw [Node.last, h.span]
  simp only [Range.span, Span.ofBounds]
  omega

/-- A node covers its children as it is. -/
theorem Solid.cover {node : Node} {range : Range} (h : node.Solid range) :
    node.cover = .ok node := by
  refine cover_of_check h.check ?_
  rw [h.span]
  exact Span.ordered_ofBounds _ _

end Node

namespace Written

open Text Mark

/-! ## Nodes of phrases -/

theorem Name.solid (name : Name) (offset : Nat) :
    (name.node offset).Solid ⟨offset, offset + width name.chars⟩ :=
  Node.solid_leaf (Nat.lt_add_of_pos_right (width_pos name.nonempty)) rfl rfl
    (List.forall_mem_singleton.2 rfl)

/-- A symbol takes up the bytes of its token. -/
theorem symbolAt_inside (token : Token) {range : Range} {offset : Nat}
    (hs : range.start ≤ offset) (hf : offset + max token.length 1 ≤ range.finish) :
    range.start ≤ (token.symbolAt offset).span.start ∧
      (token.symbolAt offset).span.last < range.finish := by
  simp only [Token.symbolAt]
  omega

/-- Behind a phrase and a gap, another phrase is behind the first one, too. -/
theorem Phrase.endsBefore_infixOffset (phrase : Phrase) (offset : Nat) (gap : Gap) {later : Nat}
    (h : phrase.infixOffset offset gap ≤ later) :
    Node.EndsBefore later (some (phrase.range offset).span) :=
  Node.endsBefore_range (phrase.range_nonempty offset)
    ((phrase.finish_le_infixOffset offset gap).trans h)

/-! ### Phrases form by form -/

namespace Phrase

/-- Wherever a phrase stands, its tree takes up the range of its body. -/
def IsSolid (phrase : Phrase) : Prop :=
  ∀ offset, (phrase.node offset).Solid (phrase.range offset)

theorem isSolid_name (word : Name) : (Phrase.name word).IsSolid := by
  intro offset
  have hrange : (Phrase.name word).range offset = ⟨offset, offset + width word.chars⟩ := by
    simp only [Phrase.range, Phrase.lead, Phrase.body, size_nil, size_spell, Nat.add_zero]
  rw [hrange]
  exact word.solid offset

theorem isSolid_number (numeral : Numeral) : (Phrase.number numeral).IsSolid :=
  fun _ => Node.solid_leaf (range_nonempty _ _) rfl rfl (List.forall_mem_singleton.2 rfl)

theorem isSolid_unary (operator : PrefixOperator) (gap : Gap) {operand : Phrase}
    (hoperand : operand.IsSolid) : (Phrase.unary operator gap operand).IsSolid := by
  intro offset
  have hpos := operator.size_pos
  have hinner := hoperand
    (offset + size (spell operator.spelling.toList) + size (spread gap))
  have hstart := operand.le_start
    (offset + size (spell operator.spelling.toList) + size (spread gap))
  have hfinish := hinner.nonempty
  refine Node.solid_branch (Phrase.range_nonempty _ _) rfl rfl ?_ ?_
  · refine List.forall_mem_singleton.2 (symbolAt_inside _ ?_ ?_)
    · simp only [Phrase.range_unary, Nat.le_refl]
    · simp only [Phrase.range_unary, length_ofOperator]
      omega
  · refine Node.checkChildren_solid (hinner.beside _ _ _) ?_ ?_
      (Node.endsBefore_none _) (Node.endsBefore_none _) rfl
    · simp only [Phrase.range_unary]
      omega
    · simp only [Phrase.range_unary, Nat.le_refl]

theorem isSolid_binary (operator : InfixOperator) (before after : Gap) {left right : Phrase}
    (hl : left.IsSolid) (hr : right.IsSolid) :
    (Phrase.binary operator left before after right).IsSolid := by
  intro offset
  have hpos := operator.size_pos
  have hleft := hl offset
  have hbefore := left.finish_le_infixOffset offset before
  have hright := hr (left.infixOffset offset before +
    size (spell operator.spelling.toList) + size (spread after))
  have hafter := right.le_start (left.infixOffset offset before +
    size (spell operator.spelling.toList) + size (spread after))
  have hleftSize := hleft.nonempty
  have hrightSize := hright.nonempty
  refine Node.solid_branch (Phrase.range_nonempty _ _) (by cases operator.form <;> rfl)
    (by cases operator.form <;> rfl) ?_ ?_
  · rw [BinaryForm.symbols_nodeKind]
    refine List.forall_mem_singleton.2 (symbolAt_inside _ ?_ ?_)
    · simp only [Phrase.range_binary]
      omega
    · simp only [Phrase.range_binary, length_ofOperator]
      omega
  · refine Node.checkChildren_pair (hleft.beside _ _ _)
      (hright.beside _ _ _) ?_ ?_ ?_
    · simp only [Phrase.range_binary, Nat.le_refl]
    · omega
    · simp only [Phrase.range_binary, Nat.le_refl]

theorem isSolid_conditional (beforeQuestion afterQuestion beforeColon afterColon : Gap)
    {test consequent alternate : Phrase} (ht : test.IsSolid) (hc : consequent.IsSolid)
    (ha : alternate.IsSolid) :
    (Phrase.conditional test beforeQuestion afterQuestion consequent beforeColon afterColon
      alternate).IsSolid := by
  intro offset
  have htest := ht offset
  have hquestion := test.finish_le_infixOffset offset beforeQuestion
  have hconsequent := hc
    (test.infixOffset offset beforeQuestion + 1 + size (spread afterQuestion))
  have hsecond := consequent.le_start
    (test.infixOffset offset beforeQuestion + 1 + size (spread afterQuestion))
  have hcolon := consequent.finish_le_infixOffset
    (test.infixOffset offset beforeQuestion + 1 + size (spread afterQuestion)) beforeColon
  have halternate := ha (consequent.infixOffset
    (test.infixOffset offset beforeQuestion + 1 + size (spread afterQuestion)) beforeColon + 1 +
      size (spread afterColon))
  have hthird := alternate.le_start (consequent.infixOffset
    (test.infixOffset offset beforeQuestion + 1 + size (spread afterQuestion)) beforeColon + 1 +
      size (spread afterColon))
  have htestSize := htest.nonempty
  have hconsequentSize := hconsequent.nonempty
  have halternateSize := halternate.nonempty
  refine Node.solid_branch (Phrase.range_nonempty _ _) rfl rfl ?_ ?_
  · refine List.forall_mem_cons.2 ⟨symbolAt_inside _ ?_ ?_,
      List.forall_mem_singleton.2 (symbolAt_inside _ ?_ ?_)⟩
    all_goals
      simp only [Phrase.range_conditional]
      try show _ + 1 ≤ _
      omega
  · -- three operands, each of them behind the one before it
    refine Node.checkChildren_solid (htest.beside _ _ _) ?_ ?_
      (Node.endsBefore_none _) (Node.endsBefore_none _) ?_
    · simp only [Phrase.range_conditional, Nat.le_refl]
    · simp only [Phrase.range_conditional]
      omega
    refine Node.checkChildren_solid (hconsequent.beside _ _ _) ?_ ?_
      (test.endsBefore_infixOffset offset beforeQuestion ?_)
      (test.endsBefore_infixOffset offset beforeQuestion ?_) ?_
    · simp only [Phrase.range_conditional]
      omega
    · simp only [Phrase.range_conditional]
      omega
    · omega
    · omega
    refine Node.checkChildren_solid (halternate.beside _ _ _) ?_ ?_
      (consequent.endsBefore_infixOffset _ beforeColon ?_)
      (consequent.endsBefore_infixOffset _ beforeColon ?_) rfl
    · simp only [Phrase.range_conditional]
      omega
    · simp only [Phrase.range_conditional, Nat.le_refl]
    · omega
    · omega

theorem isSolid_access (before after : Gap) (property : Name) {base : Phrase}
    (h : base.IsSolid) : (Phrase.access base before after property).IsSolid := by
  intro offset
  have hbase := h offset
  have hdot := base.finish_le_infixOffset offset before
  have hb := hbase.nonempty
  have hp := width_pos property.nonempty
  refine Node.solid_branch (Phrase.range_nonempty _ _) rfl rfl ?_ ?_
  · refine List.forall_mem_singleton.2 (symbolAt_inside _ ?_ ?_)
    · simp only [Phrase.range_access]
      omega
    · simp only [Phrase.range_access]
      show _ + 1 ≤ _
      omega
  · refine Node.checkChildren_pair (hbase.asObject _) (property.solid _) ?_ ?_ ?_
    · simp only [Phrase.range_access, Nat.le_refl]
    · dsimp only
      omega
    · simp only [Phrase.range_access, Nat.le_refl]

theorem isSolid_index (before after behind : Gap) {base inner : Phrase} (h : base.IsSolid)
    (hi : inner.IsSolid) : (Phrase.index base before after inner behind).IsSolid := by
  intro offset
  have hbase := h offset
  have hopening := base.finish_le_infixOffset offset before
  have hinner := hi (base.infixOffset offset before + 1 + size (spread after))
  have hstart := inner.le_start (base.infixOffset offset before + 1 + size (spread after))
  have hclosing := inner.finish_le_infixOffset
    (base.infixOffset offset before + 1 + size (spread after)) behind
  have hb := hbase.nonempty
  have hinnerSize := hinner.nonempty
  refine Node.solid_branch (Phrase.range_nonempty _ _) rfl rfl ?_ ?_
  · refine List.forall_mem_cons.2 ⟨symbolAt_inside _ ?_ ?_,
      List.forall_mem_singleton.2 (symbolAt_inside _ ?_ ?_)⟩
    all_goals
      simp only [Phrase.range_index]
      try show _ + 1 ≤ _
      omega
  · refine Node.checkChildren_pair (hbase.asObject _) hinner ?_ ?_ ?_
    · simp only [Phrase.range_index, Nat.le_refl]
    · omega
    · simp only [Phrase.range_index]
      omega

end Phrase

/-! ### All phrases -/

mutual

/-- The tree of a phrase takes up the range of its body. -/
theorem Phrase.solid (phrase : Phrase) (offset : Nat) :
    (phrase.node offset).Solid (phrase.range offset) := by
  match phrase with
  | .name word => exact Phrase.isSolid_name word offset
  | .number numeral => exact Phrase.isSolid_number numeral offset
  | .unary operator gap operand => exact Phrase.isSolid_unary operator gap operand.solid offset
  | .binary operator left before after right =>
    exact Phrase.isSolid_binary operator before after left.solid right.solid offset
  | .conditional test beforeQuestion afterQuestion consequent beforeColon afterColon alternate =>
    exact Phrase.isSolid_conditional beforeQuestion afterQuestion beforeColon afterColon test.solid
      consequent.solid alternate.solid offset
  | .call callee gap arguments =>
    have hcallee := callee.solid offset
    have hopening := callee.finish_le_infixOffset offset gap
    have hc := hcallee.nonempty
    refine Node.solid_branch (Phrase.range_nonempty _ _) rfl rfl (List.forall_mem_nil _) ?_
    refine Node.checkChildren_pair (hcallee.asObject _)
      (arguments.solid (callee.infixOffset offset gap)) ?_ hopening ?_
    · simp only [Phrase.range_call, Nat.le_refl]
    · simp only [Phrase.range_call, Nat.le_refl]
  | .access base before after property =>
    exact Phrase.isSolid_access before after property base.solid offset
  | .index base before after inner behind =>
    exact Phrase.isSolid_index before after behind base.solid inner.solid offset
  | .array elements =>
    refine Node.solid_branch (Phrase.range_nonempty _ _) rfl rfl ?_ ?_
    · refine List.forall_mem_cons.2 ⟨symbolAt_inside _ ?_ ?_,
        List.forall_mem_singleton.2 (symbolAt_inside _ ?_ ?_)⟩
      all_goals
        simp only [Phrase.range_array]
        try show _ + 1 ≤ _
        omega
    · refine elements.laid ?_ (Nat.lt_succ_self _) ?_ (fun _ h => by cases h)
        (Node.endsBefore_none _) (Node.endsBefore_none _)
      · simp only [Phrase.range_array, Nat.le_refl]
      · simp only [Phrase.range_array]
        omega
  | .parens before inner after =>
    rw [Phrase.range_parens]
    exact inner.solid _

/-- The list of arguments takes up everything between the parentheses of a call, and these. -/
theorem Arguments.solid (arguments : Arguments) (opening : Nat) :
    (Node.branch
      (.arguments (Token.leftParen.symbolAt opening)
        (Token.rightParen.symbolAt (opening + 1 + size arguments.marks)))
      (Range.span ⟨opening, opening + 1 + size arguments.marks + 1⟩)
      (arguments.nodes (opening + 1))).Solid
        ⟨opening, opening + 1 + size arguments.marks + 1⟩ := by
  refine Node.solid_branch (by simp only; omega) rfl rfl ?_ ?_
  · refine List.forall_mem_cons.2 ⟨symbolAt_inside _ ?_ ?_,
      List.forall_mem_singleton.2 (symbolAt_inside _ ?_ ?_)⟩
    all_goals
      simp only
      try show _ + 1 ≤ _
      omega
  · exact arguments.laid (by simp only; omega) (by simp only; omega) (Node.endsBefore_none _)

/-- Arguments lie one behind the other between the given offset and the end of their text. -/
theorem Arguments.laid (arguments : Arguments) {offset : Nat} {kind : NodeKind} {range : Range}
    {previous : Option Span} (hstart : range.start ≤ offset)
    (hfinish : offset + size arguments.marks ≤ range.finish)
    (hprevious : Node.EndsBefore offset previous) :
    Node.checkChildren kind range.span previous previous (arguments.nodes offset) = .ok () := by
  match arguments with
  | .none gap => rfl
  | .last before argument after =>
    simp only [Arguments.marks, size_append] at hfinish
    refine Node.checkChildren_solid (argument.solid (offset + size (spread before))) ?_ ?_
      (hprevious.mono ?_) (hprevious.mono ?_) rfl
    all_goals
      simp only [Phrase.range]
      omega
  | .more before argument after rest =>
    simp (disch := decide) only [Arguments.marks, size_append, size_code_cons] at hfinish
    refine Node.checkChildren_solid (argument.solid (offset + size (spread before))) ?_ ?_
      (hprevious.mono ?_) (hprevious.mono ?_) (rest.laid ?_ ?_ (argument.endsBefore_infixOffset _
        after (Nat.le_succ _)))
    all_goals
      simp only [Phrase.range, Phrase.infixOffset, Phrase.behind, Phrase.size_marks]
      omega

/-- Elements and holes lie one behind the other, though a hole has the place of the last byte in
front of it. -/
theorem Elements.laid (elements : Elements) {offset last : Nat} {kind : NodeKind} {range : Range}
    {previous solid : Option Span} (hstart : range.start ≤ last) (hlast : last < offset)
    (hfinish : offset + size elements.marks ≤ range.finish)
    (hhole : ∀ other ∈ previous, other.start ≤ last)
    (hprevious : Node.EndsBefore offset previous) (hsolid : Node.EndsBefore offset solid) :
    Node.checkChildren kind range.span previous solid (elements.nodes offset last) = .ok () := by
  match elements with
  | .none gap => rfl
  | .last before element after =>
    simp only [Elements.marks, size_append] at hfinish
    refine Node.checkChildren_solid (element.solid (offset + size (spread before))) ?_ ?_
      (hprevious.mono ?_) (hsolid.mono ?_) rfl
    all_goals
      simp only [Phrase.range]
      omega
  | .more before element after rest =>
    simp (disch := decide) only [Elements.marks, size_append, size_code_cons] at hfinish
    have hbody := element.size_body_pos
    have hends := element.endsBefore_infixOffset (offset + size (spread before)) after
      (Nat.le_succ _)
    refine Node.checkChildren_solid (element.solid (offset + size (spread before))) ?_ ?_
      (hprevious.mono ?_) (hsolid.mono ?_) (rest.laid ?_ ?_ ?_ ?_ hends hends)
    case refine_8 =>
      intro other hother
      cases hother
      simp only [Range.span, Span.ofBounds, Phrase.range]
      omega
    all_goals
      simp only [Phrase.range, Phrase.infixOffset, Phrase.behind, Phrase.size_marks]
      omega
  | .hole gap rest =>
    simp (disch := decide) only [Elements.marks, size_append, size_code_cons] at hfinish
    refine Node.checkChildren_elision ?_ hhole (rest.laid hstart ?_ ?_ ?_ ?_ (hsolid.mono ?_))
    · rw [Span.contains_iff]
      simp only [Range.span, Span.ofBounds, Span.point]
      omega
    · omega
    · omega
    · intro other hother
      cases hother
      exact Nat.le_refl last
    · intro other hother
      cases hother
      simp only [Span.point]
      omega
    · omega

end

end Written

end Concretion
