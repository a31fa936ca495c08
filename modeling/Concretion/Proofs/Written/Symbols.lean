import Concretion.Proofs.Written.Page
import Concretion.Proofs.Written.Texts
import Concretion.Proofs.Written.Valid

/-!
# The symbols of a phrase

The concrete tree of a phrase gives places to symbols by counting what is written in front of them.
These are the places of the tokens in a page: the characters of each symbol stand there, as code and
not in a comment, and they are all that its span covers.

- `Symbol.StandsIn`: the span of a symbol is that of its token.
- `Phrase.standsIn`: so it is for all symbols in the tree of a phrase.
-/

namespace Concretion

open Text Mark Written

/-- The symbol has the span of its token: its characters stand there, and nothing else does. -/
structure Symbol.StandsIn (symbol : Symbol) (page : Page) : Prop where
  characters : page.At symbol.span.start (spell symbol.value.toList)
  finish : symbol.span.last + 1 = symbol.span.start + size (spell symbol.value.toList)

/-- All symbols of a tree have the spans of their tokens. -/
def Node.StandsIn (node : Node) (page : Page) : Prop :=
  ∀ below ∈ node.preorder, ∀ symbol ∈ below.symbols, symbol.StandsIn page

variable {page : Page} {offset : Nat}

/-- The text of a symbol can be read off its span. -/
theorem Symbol.StandsIn.slice {symbol : Symbol} (h : symbol.StandsIn page) :
    page.source.slice symbol.span.start (symbol.span.last + 1) = some symbol.value := by
  rw [h.finish, h.characters.slice, text_spell, String.ofList_toList]

theorem standsIn_symbolAt {token : Token} (h : page.At offset (spell token.text.toList))
    (hpos : 0 < size (spell token.text.toList)) : (token.symbolAt offset).StandsIn page where
  characters := h
  finish := by
    simp only [Token.symbolAt, Token.length, utf8ByteSize_eq, ← size_spell]
    omega

theorem standsIn_word {kind : TokenKind} {chars : List Char} (h : page.At offset (spell chars))
    (hne : chars ≠ []) :
    Symbol.StandsIn ⟨kind, Range.span ⟨offset, offset + width chars⟩, String.ofList chars⟩
      page where
  characters := by
    rw [String.toList_ofList]
    exact h
  finish := by
    have hpos := width_pos hne
    simp only [Range.span, Span.ofBounds, String.toList_ofList, size_spell]
    omega

namespace Node

theorem standsIn_branch {kind : NodeKind} {span : Span} {children : List Node}
    (hsymbols : ∀ symbol ∈ kind.symbols, symbol.StandsIn page)
    (hchildren : ∀ child ∈ children, child.StandsIn page) :
    (branch kind span children).StandsIn page := by
  intro below hbelow
  rcases mem_preorder.1 hbelow with rfl | ⟨child, hmem, hbelow⟩
  · exact hsymbols
  · exact hchildren child hmem below hbelow

theorem StandsIn.grouped {node : Node} (h : node.StandsIn page) : node.grouped.StandsIn page :=
  standsIn_branch (List.forall_mem_nil _) (List.forall_mem_singleton.2 h)

theorem StandsIn.beside {node : Node} (h : node.StandsIn page) (inner : Option Operator)
    (outer : Operator) (side : Operator.Side) : (node.beside inner outer side).StandsIn page := by
  rw [Node.beside]
  split
  · exact h.grouped
  · exact h

theorem StandsIn.asObject {node : Node} (h : node.StandsIn page) (inner : Option Operator) :
    (node.asObject inner).StandsIn page := by
  rw [Node.asObject]
  split
  · exact h.grouped
  · exact h

end Node

namespace Written

/-- A single character is a token. -/
theorem standsIn_character {token : Token} (h : page.At offset (spell token.text.toList))
    (hone : token.text.toList.length = 1) : (token.symbolAt offset).StandsIn page := by
  refine standsIn_symbolAt h ?_
  rw [size_spell]
  exact width_pos (List.ne_nil_of_length_eq_add_one hone)

theorem Name.standsIn (name : Name) (h : page.At offset (spell name.chars)) :
    (name.node offset).StandsIn page :=
  Node.standsIn_branch (List.forall_mem_singleton.2 (standsIn_word h name.nonempty))
    (List.forall_mem_nil _)

mutual

/-- In the tree of a phrase every symbol has the span of its token. -/
theorem Phrase.standsIn (phrase : Phrase) {offset : Nat} (h : page.At offset phrase.marks) :
    (phrase.node offset).StandsIn page := by
  match phrase with
  | .name word => exact word.standsIn h.left.right
  | .number numeral =>
    have hrange : (Phrase.number numeral).range offset =
        ⟨offset, offset + width numeral.digits⟩ := by
      simp only [Phrase.range, Phrase.lead, Phrase.body, size_nil, size_spell, Nat.add_zero]
    refine Node.standsIn_branch (List.forall_mem_singleton.2 ?_) (List.forall_mem_nil _)
    rw [hrange]
    exact standsIn_word h.left.right numeral.nonempty
  | .unary operator gap operand =>
    rw [Phrase.marks_unary] at h
    have htoken := h.left
    have hpos := operator.size_pos
    rw [← Token.text_ofOperator operator.spelling] at htoken hpos
    exact Node.standsIn_branch (List.forall_mem_singleton.2 (standsIn_symbolAt htoken hpos))
      (List.forall_mem_singleton.2 ((operand.standsIn h.right.right).beside _ _ _))
  | .binary operator left before after right =>
    rw [Phrase.marks_binary] at h
    have htoken := h.right.right.left
    have hpos := operator.size_pos
    rw [← Token.text_ofOperator operator.spelling] at htoken hpos
    refine Node.standsIn_branch ?_ ?_
    · rw [BinaryForm.symbols_nodeKind]
      exact List.forall_mem_singleton.2 (standsIn_symbolAt htoken hpos)
    · exact List.forall_mem_cons.2 ⟨(left.standsIn h.left).beside _ _ _, List.forall_mem_singleton.2
        ((right.standsIn h.right.right.right.right).beside _ _ _)⟩
  | .conditional test beforeQuestion afterQuestion consequent beforeColon afterColon alternate =>
    rw [Phrase.marks_conditional] at h
    have hsecond : page.At
        (test.infixOffset offset beforeQuestion + 1 + size (spread afterQuestion))
        (consequent.marks ++ _) := h.right.right.right.right
    refine Node.standsIn_branch
      (List.forall_mem_cons.2 ⟨standsIn_character h.right.right.left rfl,
        List.forall_mem_singleton.2 (standsIn_character hsecond.right.right.left rfl)⟩)
      (List.forall_mem_cons.2 ⟨(test.standsIn h.left).beside _ _ _, List.forall_mem_cons.2
        ⟨(consequent.standsIn hsecond.left).beside _ _ _, List.forall_mem_singleton.2
          ((alternate.standsIn hsecond.right.right.right.right).beside _ _ _)⟩⟩)
  | .call callee gap arguments =>
    rw [Phrase.marks_call] at h
    have harguments : page.At (callee.infixOffset offset gap + 1)
        (arguments.marks ++ spell ")".toList) := h.right.right.right
    refine Node.standsIn_branch (List.forall_mem_nil _) (List.forall_mem_cons.2
      ⟨(callee.standsIn h.left).asObject _, List.forall_mem_singleton.2 ?_⟩)
    exact Node.standsIn_branch
      (List.forall_mem_cons.2 ⟨standsIn_character h.right.right.left rfl,
        List.forall_mem_singleton.2 (standsIn_character harguments.right rfl)⟩)
      (arguments.standsIn harguments.left)
  | .access base before after property =>
    rw [Phrase.marks_access] at h
    exact Node.standsIn_branch
      (List.forall_mem_singleton.2 (standsIn_character h.right.right.left rfl))
      (List.forall_mem_cons.2 ⟨(base.standsIn h.left).asObject _,
        List.forall_mem_singleton.2 (property.standsIn h.right.right.right.right)⟩)
  | .index base before after inner behind =>
    rw [Phrase.marks_index] at h
    have hinner : page.At (base.infixOffset offset before + 1 + size (spread after))
        (inner.marks ++ _) := h.right.right.right.right
    exact Node.standsIn_branch
      (List.forall_mem_cons.2 ⟨standsIn_character h.right.right.left rfl,
        List.forall_mem_singleton.2 (standsIn_character hinner.right.right rfl)⟩)
      (List.forall_mem_cons.2 ⟨(base.standsIn h.left).asObject _,
        List.forall_mem_singleton.2 (inner.standsIn hinner.left)⟩)
  | .array elements =>
    rw [Phrase.marks_array] at h
    have helements : page.At (offset + 1) (elements.marks ++ _) := h.right
    exact Node.standsIn_branch
      (List.forall_mem_cons.2 ⟨standsIn_character h.left rfl,
        List.forall_mem_singleton.2 (standsIn_character helements.right rfl)⟩)
      (elements.standsIn helements.left offset)
  | .parens before inner after =>
    rw [Phrase.marks_parens] at h
    exact inner.standsIn h.right.right.left

theorem Arguments.standsIn (arguments : Arguments) {offset : Nat}
    (h : page.At offset arguments.marks) :
    ∀ node ∈ arguments.nodes offset, node.StandsIn page := by
  match arguments with
  | .none gap => exact List.forall_mem_nil _
  | .last before argument after =>
    rw [Arguments.marks_last] at h
    exact List.forall_mem_singleton.2 (argument.standsIn h.right.left)
  | .more before argument after rest =>
    rw [Arguments.marks_more] at h
    exact List.forall_mem_cons.2
      ⟨argument.standsIn h.right.left, rest.standsIn h.right.right.right.right⟩

theorem Elements.standsIn (elements : Elements) {offset : Nat} (h : page.At offset elements.marks)
    (last : Nat) : ∀ node ∈ elements.nodes offset last, node.StandsIn page := by
  match elements with
  | .none gap => exact List.forall_mem_nil _
  | .last before element after =>
    rw [Elements.marks_last] at h
    exact List.forall_mem_singleton.2 (element.standsIn h.right.left)
  | .more before element after rest =>
    rw [Elements.marks_more] at h
    exact List.forall_mem_cons.2
      ⟨element.standsIn h.right.left, rest.standsIn h.right.right.right.right _⟩
  | .hole gap rest =>
    rw [Elements.marks_hole] at h
    have hhole : (Node.elision last).StandsIn page :=
      Node.standsIn_branch (List.forall_mem_nil _) (List.forall_mem_nil _)
    exact List.forall_mem_cons.2 ⟨hhole, rest.standsIn h.right.right last⟩

end

end Written

end Concretion
