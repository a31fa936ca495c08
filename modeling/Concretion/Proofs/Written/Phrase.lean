import Concretion.Concrete.Node
import Concretion.Proofs.Written.Marks
import Concretion.Recovery.Rule.Operation

/-!
# Written expressions

An expression as it is written down, with every token, with whatever stands between two tokens, and
with parentheses wherever they were put. All that is known of such a phrase is read off its shape:

- `Phrase.marks`: its text, made up of its `body`, from the first to the last token that is its own,
  and of the parentheses around it, in the `lead` and in the `tail`. A phrase that starts with an
  operand begins its body with that of the operand, so that the parentheses around the operand
  are counted with the lead.
- `Phrase.expr`: the abstract tree a parser makes of it. Parentheses leave no trace there, and
  a range is that of a body.
- `Phrase.node`: the concrete tree to be recovered, in which every symbol has the place at which the
  phrase has its token.

Nothing here searches a text.
-/

namespace Concretion

/-- The symbol of a token at an offset. -/
def Token.symbolAt (token : Token) (offset : Nat) : Symbol :=
  ⟨token.kind, ⟨offset, offset + max token.length 1 - 1⟩, token.text⟩

namespace Node

/-- A node in a group of the same span. -/
def grouped (node : Node) : Node := .branch .group node.span [node]

/-- An operand beside an operator, in the parentheses that it must have had if it applies an
operator itself. -/
def beside (node : Node) (inner : Option Operator) (outer : Operator) (side : Operator.Side) :
    Node :=
  if inner.any (outer.needsParens · side) then node.grouped else node

/-- The object of a call or of an access, in the parentheses that it must have had. -/
def asObject (node : Node) (inner : Option Operator) : Node :=
  if inner.any (· != .construct) then node.grouped else node

end Node

namespace Written

open Text Mark

/-! ## Words and operators -/

/-- An identifier. -/
structure Name where
  chars : List Char
  nonempty : chars ≠ []
  word : ∀ c ∈ chars, isWordChar c

/-- A decimal integer. -/
structure Numeral where
  digits : List Char
  nonempty : digits ≠ []
  decimal : ∀ c ∈ digits, c.isDigit

/-- An operator that is written in front of its operand. -/
structure PrefixOperator where
  operator : Operator
  spelling : String
  supported : operator.unaryForm = some (spelling, .before)

/-- An operator that is written between two operands, other than division. -/
structure InfixOperator where
  operator : Operator
  spelling : String
  form : BinaryForm
  supported : operator.binaryForm = some (spelling, form)
  noDivision : operator ≠ .divide ∧ operator ≠ .assignDivide

/-- Is the operator a word? -/
def InfixOperator.isWord (operator : InfixOperator) : Bool := isAlphabetic operator.spelling

def Name.text (name : Name) : String := String.ofList name.chars

def Numeral.text (numeral : Numeral) : String := String.ofList numeral.digits

/-! ## Phrases -/

mutual

/-- An expression as it is written. -/
inductive Phrase where
  | name (name : Name)
  | number (numeral : Numeral)
  | unary (operator : PrefixOperator) (gap : Gap) (operand : Phrase)
  | binary (operator : InfixOperator) (left : Phrase) (before after : Gap) (right : Phrase)
  | conditional (test : Phrase) (beforeQuestion afterQuestion : Gap) (consequent : Phrase)
      (beforeColon afterColon : Gap) (alternate : Phrase)
  | call (callee : Phrase) (gap : Gap) (arguments : Arguments)
  | access (base : Phrase) (before after : Gap) (property : Name)
  | index (base : Phrase) (before after : Gap) (index : Phrase) (behind : Gap)
  | array (elements : Elements)
  /-- An expression in parentheses. -/
  | parens (before : Gap) (inner : Phrase) (after : Gap)

/-- What is written between the parentheses of a call. -/
inductive Arguments where
  | none (gap : Gap)
  | last (before : Gap) (argument : Phrase) (after : Gap)
  /-- An argument with a comma behind it. -/
  | more (before : Gap) (argument : Phrase) (after : Gap) (rest : Arguments)

/-- What is written between the brackets of an array literal. -/
inductive Elements where
  | none (gap : Gap)
  | last (before : Gap) (element : Phrase) (after : Gap)
  /-- An element with a comma behind it. -/
  | more (before : Gap) (element : Phrase) (after : Gap) (rest : Elements)
  /-- A comma in place of an element. -/
  | hole (gap : Gap) (rest : Elements)

end

/-! ## The text -/

namespace Phrase

/-- What stands in front of the body. -/
def lead : Phrase → List Mark
  | parens before inner _ => .code '(' :: spread before ++ inner.lead
  | binary _ operand .. | conditional operand .. | call operand .. | access operand ..
  | index operand .. => operand.lead
  | name _ | number _ | unary .. | array _ => []

/-- What stands behind the body. -/
def tail : Phrase → List Mark
  | parens _ inner after => inner.tail ++ spread after ++ [.code ')']
  | unary _ _ operand | binary _ _ _ _ operand | conditional _ _ _ _ _ _ operand => operand.tail
  | name _ | number _ | call .. | access .. | index .. | array _ => []

end Phrase

mutual

/-- From the first token to the last, but for the parentheses around the phrase. -/
def Phrase.body : Phrase → List Mark
  | .name name => spell name.chars
  | .number numeral => spell numeral.digits
  | .unary operator gap operand =>
    spell operator.spelling.toList ++ spread gap ++ operand.lead ++ operand.body
  | .binary operator left before after right =>
    left.body ++ left.tail ++ spread before ++ spell operator.spelling.toList ++ spread after ++
      right.lead ++ right.body
  | .conditional test beforeQuestion afterQuestion consequent beforeColon afterColon alternate =>
    test.body ++ test.tail ++ spread beforeQuestion ++ .code '?' :: spread afterQuestion ++
      consequent.lead ++ consequent.body ++ consequent.tail ++ spread beforeColon ++
        .code ':' :: spread afterColon ++ alternate.lead ++ alternate.body
  | .call callee gap arguments =>
    callee.body ++ callee.tail ++ spread gap ++ .code '(' :: arguments.marks ++ [.code ')']
  | .access base before after property =>
    base.body ++ base.tail ++ spread before ++ .code '.' :: spread after ++ spell property.chars
  | .index base before after index behind =>
    base.body ++ base.tail ++ spread before ++ .code '[' :: spread after ++
      index.lead ++ index.body ++ index.tail ++ spread behind ++ [.code ']']
  | .array elements => .code '[' :: elements.marks ++ [.code ']']
  | .parens _ inner _ => inner.body

/-- The text between the parentheses. -/
def Arguments.marks : Arguments → List Mark
  | .none gap => spread gap
  | .last before argument after =>
    spread before ++ argument.lead ++ argument.body ++ argument.tail ++ spread after
  | .more before argument after rest =>
    spread before ++ argument.lead ++ argument.body ++ argument.tail ++ spread after ++
      .code ',' :: rest.marks

/-- The text between the brackets. -/
def Elements.marks : Elements → List Mark
  | .none gap => spread gap
  | .last before element after =>
    spread before ++ element.lead ++ element.body ++ element.tail ++ spread after
  | .more before element after rest =>
    spread before ++ element.lead ++ element.body ++ element.tail ++ spread after ++
      .code ',' :: rest.marks
  | .hole gap rest => spread gap ++ .code ',' :: rest.marks

end

namespace Phrase

variable (phrase : Phrase)

/-- The text of a phrase. -/
def marks : List Mark := phrase.lead ++ phrase.body ++ phrase.tail

/-! ## Places

The phrase is taken to be written from a given offset on. -/

/-- Where the body is. -/
def range (offset : Nat) : Range :=
  ⟨offset + size phrase.lead, offset + size phrase.lead + size phrase.body⟩

/-- Where the text of the phrase ends. -/
def behind (offset : Nat) : Nat := offset + size phrase.marks

/-- Where the operator of a binary phrase with the given left operand is. -/
def infixOffset (offset : Nat) (before : Gap) : Nat := phrase.behind offset + size (spread before)

end Phrase

/-! ## Words kept apart

An operator that is a word is only found if neither of the characters next to it belongs to a word.
The characters of words include all those beyond ASCII, even white space. -/

/-- Neither the last character in front of the operator nor the first one behind it belongs to a
word. -/
def InfixOperator.isApart (operator : InfixOperator) (left right : List Mark) : Bool :=
  !operator.isWord ||
    (text left).getLast?.any (!isWordChar ·) && (text right).head?.any (!isWordChar ·)

mutual

/-- All operators between operands that are words are kept apart from other words. -/
def Phrase.isApart : Phrase → Bool
  | .name _ | .number _ => true
  | .unary _ _ operand => operand.isApart
  | .binary operator left before after right =>
    operator.isApart (left.marks ++ spread before) (spread after ++ right.marks) &&
      left.isApart && right.isApart
  | .conditional test _ _ consequent _ _ alternate =>
    test.isApart && consequent.isApart && alternate.isApart
  | .call callee _ arguments => callee.isApart && arguments.isApart
  | .access base .. => base.isApart
  | .index base _ _ index _ => base.isApart && index.isApart
  | .array elements => elements.isApart
  | .parens _ inner _ => inner.isApart

def Arguments.isApart : Arguments → Bool
  | .none _ => true
  | .last _ argument _ => argument.isApart
  | .more _ argument _ rest => argument.isApart && rest.isApart

def Elements.isApart : Elements → Bool
  | .none _ => true
  | .last _ element _ => element.isApart
  | .more _ element _ rest => element.isApart && rest.isApart
  | .hole _ rest => rest.isApart

end

/-! ### Sizes -/

theorem size_code_cons {c : Char} (rest : List Mark) (h : c.toNat < 0x80) :
    size (.code c :: rest) = 1 + size rest := by
  have hone : size [.code c] = (String.utf8EncodeChar c).length := by
    rw [String.length_utf8EncodeChar]
    rfl
  rw [size_cons, hone, bytes_of_isAscii (decide_eq_true h)]
  rfl

namespace Phrase

theorem size_marks (phrase : Phrase) :
    size phrase.marks = size phrase.lead + size phrase.body + size phrase.tail := by
  rw [marks, size_append, size_append]

/-- The body of a phrase has at least one token. -/
theorem size_body_pos (phrase : Phrase) : 0 < size phrase.body := by
  match phrase with
  | .name word =>
    rw [body, size_spell]
    exact width_pos word.nonempty
  | .number numeral =>
    rw [body, size_spell]
    exact width_pos numeral.nonempty
  | .unary operator gap operand =>
    have := operand.size_body_pos
    simp only [body, size_append]
    omega
  | .binary operator left before after right =>
    have := left.size_body_pos
    simp only [body, size_append]
    omega
  | .conditional test beforeQuestion afterQuestion consequent beforeColon afterColon alternate =>
    have := test.size_body_pos
    simp only [body, size_append]
    omega
  | .call callee gap arguments =>
    have := callee.size_body_pos
    simp only [body, size_append]
    omega
  | .access base before after property =>
    have := base.size_body_pos
    simp only [body, size_append]
    omega
  | .index base before after inner behind =>
    have := base.size_body_pos
    simp only [body, size_append]
    omega
  | .array elements =>
    simp (disch := decide) only [body, List.cons_append, size_code_cons]
    omega
  | .parens before inner after =>
    have := inner.size_body_pos
    simp only [body]
    exact this

end Phrase

theorem length_ofOperator (spelling : String) :
    (Token.ofOperator spelling).length = size (spell spelling.toList) := by
  rw [Token.length, Token.text_ofOperator, utf8ByteSize_eq, size_spell]

theorem PrefixOperator.size_pos (operator : PrefixOperator) :
    0 < size (spell operator.spelling.toList) := by
  have hne := Operator.spelling_ne_of_unaryForm operator.supported
  rw [size_spell]
  exact width_pos (String.toList_eq_nil_iff.not.2 hne)

theorem InfixOperator.size_pos (operator : InfixOperator) :
    0 < size (spell operator.spelling.toList) := by
  have hne := Operator.spelling_ne_of_binaryForm operator.supported
  rw [size_spell]
  exact width_pos (String.toList_eq_nil_iff.not.2 hne)

/-! ### Ranges of parts -/

namespace Phrase

theorem range_nonempty (phrase : Phrase) (offset : Nat) :
    (phrase.range offset).start < (phrase.range offset).finish :=
  Nat.lt_add_of_pos_right phrase.size_body_pos

theorem le_start (phrase : Phrase) (offset : Nat) : offset ≤ (phrase.range offset).start :=
  Nat.le_add_right _ _

theorem infixOffset_eq (phrase : Phrase) (offset : Nat) (gap : Gap) :
    phrase.infixOffset offset gap =
      (phrase.range offset).finish + size phrase.tail + size (spread gap) := by
  simp only [infixOffset, behind, size_marks, range]
  omega

theorem finish_le_infixOffset (phrase : Phrase) (offset : Nat) (gap : Gap) :
    (phrase.range offset).finish ≤ phrase.infixOffset offset gap := by
  rw [infixOffset_eq]
  omega

variable (offset : Nat)

attribute [local simp] lead body tail range behind infixOffset

/-- An operator expression begins with its operator and ends with its operand. -/
theorem range_unary (operator : PrefixOperator) (gap : Gap) (operand : Phrase) :
    (unary operator gap operand).range offset =
      ⟨offset, (operand.range (offset + size (spell operator.spelling.toList) +
        size (spread gap))).finish⟩ := by
  simp [Nat.add_assoc]

/-- An operator expression begins with its left operand and ends with its right one. -/
theorem range_binary (operator : InfixOperator) (left : Phrase) (before after : Gap)
    (right : Phrase) :
    (binary operator left before after right).range offset =
      ⟨(left.range offset).start, (right.range (left.infixOffset offset before +
        size (spell operator.spelling.toList) + size (spread after))).finish⟩ := by
  simp [size_marks, Nat.add_assoc]

theorem range_conditional (test : Phrase) (beforeQuestion afterQuestion : Gap)
    (consequent : Phrase) (beforeColon afterColon : Gap) (alternate : Phrase) :
    (conditional test beforeQuestion afterQuestion consequent beforeColon afterColon
        alternate).range offset =
      ⟨(test.range offset).start, (alternate.range (consequent.infixOffset
        (test.infixOffset offset beforeQuestion + 1 + size (spread afterQuestion)) beforeColon + 1 +
          size (spread afterColon))).finish⟩ := by
  simp (disch := decide) [size_marks, size_code_cons, Nat.add_assoc]

/-- A call begins with its callee and ends with its closing parenthesis. -/
theorem range_call (callee : Phrase) (gap : Gap) (arguments : Arguments) :
    (call callee gap arguments).range offset =
      ⟨(callee.range offset).start,
        callee.infixOffset offset gap + 1 + size arguments.marks + 1⟩ := by
  simp (disch := decide) [size_marks, size_code_cons, Nat.add_assoc]

/-- An access begins with its base and ends with the name of the property. -/
theorem range_access (base : Phrase) (before after : Gap) (property : Name) :
    (access base before after property).range offset =
      ⟨(base.range offset).start,
        base.infixOffset offset before + 1 + size (spread after) + width property.chars⟩ := by
  simp (disch := decide) [size_marks, size_code_cons, Nat.add_assoc]

theorem range_index (base : Phrase) (before after : Gap) (inner : Phrase) (behind : Gap) :
    (index base before after inner behind).range offset =
      ⟨(base.range offset).start, inner.infixOffset
        (base.infixOffset offset before + 1 + size (spread after)) behind + 1⟩ := by
  simp (disch := decide) [size_marks, size_code_cons, Nat.add_assoc]

/-- An array literal is all that is between its brackets. -/
theorem range_array (elements : Elements) :
    (array elements).range offset = ⟨offset, offset + 1 + size elements.marks + 1⟩ := by
  simp (disch := decide) [size_code_cons, Nat.add_assoc]

/-- Parentheses are not counted. -/
theorem range_parens (before : Gap) (inner : Phrase) (after : Gap) :
    (parens before inner after).range offset =
      inner.range (offset + 1 + size (spread before)) := by
  simp (disch := decide) [size_code_cons, Nat.add_assoc]

end Phrase

/-! ## The abstract tree -/

mutual

/-- The abstract tree of a phrase. -/
def Phrase.expr (offset : Nat) : Phrase → Expr
  | .name name => .ident ⟨(Phrase.name name).range offset, name.text, false, false⟩
  | .number numeral => .literal ((Phrase.number numeral).range offset) .number
  | .unary operator gap operand =>
    .unary ((Phrase.unary operator gap operand).range offset) operator.operator
      (operand.expr (offset + size (spell operator.spelling.toList) + size (spread gap)))
  | .binary operator left before after right =>
    .binary ((Phrase.binary operator left before after right).range offset) operator.operator
      (left.expr offset)
      (right.expr (left.infixOffset offset before + size (spell operator.spelling.toList) +
        size (spread after)))
  | .conditional test beforeQuestion afterQuestion consequent beforeColon afterColon alternate =>
    let second := test.infixOffset offset beforeQuestion + 1 + size (spread afterQuestion)
    .conditional
      ((Phrase.conditional test beforeQuestion afterQuestion consequent beforeColon afterColon
        alternate).range offset)
      (test.expr offset) (consequent.expr second)
      (alternate.expr
        (consequent.infixOffset second beforeColon + 1 + size (spread afterColon)))
  | .call callee gap arguments =>
    .call ((Phrase.call callee gap arguments).range offset) (callee.expr offset)
      (arguments.exprs (callee.infixOffset offset gap + 1))
  | .access base before after property =>
    .access ((Phrase.access base before after property).range offset) (base.expr offset)
      property.text
  | .index base before after index behind =>
    .index ((Phrase.index base before after index behind).range offset) (base.expr offset)
      (index.expr (base.infixOffset offset before + 1 + size (spread after)))
  | .array elements =>
    .array ((Phrase.array elements).range offset) (elements.exprs (offset + 1))
  | .parens before inner _ => inner.expr (offset + 1 + size (spread before))

/-- The abstract trees of arguments. -/
def Arguments.exprs (offset : Nat) : Arguments → List Expr
  | .none _ => []
  | .last before argument _ => [argument.expr (offset + size (spread before))]
  | .more before argument after rest =>
    let start := offset + size (spread before)
    argument.expr start :: rest.exprs (argument.infixOffset start after + 1)

/-- The abstract trees of elements. -/
def Elements.exprs (offset : Nat) : Elements → List (Option Expr)
  | .none _ => []
  | .last before element _ => [some (element.expr (offset + size (spread before)))]
  | .more before element after rest =>
    let start := offset + size (spread before)
    some (element.expr start) :: rest.exprs (element.infixOffset start after + 1)
  | .hole gap rest => none :: rest.exprs (offset + size (spread gap) + 1)

end

/-! ## The concrete tree -/

namespace Phrase

/-- The operator that the phrase applies, parentheses around it aside. -/
def operator? : Phrase → Option Operator
  | unary operator .. => some operator.operator
  | binary operator .. => some operator.operator
  | conditional .. => some .conditional
  | parens _ inner _ => inner.operator?
  | name _ | number _ | call .. | access .. | index .. | array _ => none

end Phrase

/-- The node of a name. -/
def Name.node (name : Name) (offset : Nat) : Node :=
  let span := Range.span ⟨offset, offset + width name.chars⟩
  .leaf (.identifier ⟨.identifier, span, name.text⟩) span

mutual

/-- The concrete tree of a phrase. -/
def Phrase.node (offset : Nat) : Phrase → Node
  | .name name => name.node offset
  | .number numeral =>
    let span := ((Phrase.number numeral).range offset).span
    .leaf (.number ⟨.number, span, numeral.text⟩) span
  | .unary operator gap operand =>
    let symbol := (Token.ofOperator operator.spelling).symbolAt offset
    let inner := offset + size (spell operator.spelling.toList) + size (spread gap)
    .branch (.preUnary symbol) ((Phrase.unary operator gap operand).range offset).span
      [(operand.node inner).beside operand.operator? operator.operator .right]
  | .binary operator left before after right =>
    let start := left.infixOffset offset before
    let symbol := (Token.ofOperator operator.spelling).symbolAt start
    let second := start + size (spell operator.spelling.toList) + size (spread after)
    .branch (operator.form.nodeKind symbol)
      ((Phrase.binary operator left before after right).range offset).span
      [(left.node offset).beside left.operator? operator.operator .left,
        (right.node second).beside right.operator? operator.operator .right]
  | .conditional test beforeQuestion afterQuestion consequent beforeColon afterColon alternate =>
    let question := test.infixOffset offset beforeQuestion
    let second := question + 1 + size (spread afterQuestion)
    let colon := consequent.infixOffset second beforeColon
    let third := colon + 1 + size (spread afterColon)
    .branch (.conditional (Token.question.symbolAt question) (Token.colon.symbolAt colon))
      ((Phrase.conditional test beforeQuestion afterQuestion consequent beforeColon afterColon
        alternate).range offset).span
      [(test.node offset).beside test.operator? .conditional .left,
        (consequent.node second).beside consequent.operator? .assign .right,
        (alternate.node third).beside alternate.operator? .assign .right]
  | .call callee gap arguments =>
    let opening := callee.infixOffset offset gap
    let closing := opening + 1 + size arguments.marks
    .branch .invoke ((Phrase.call callee gap arguments).range offset).span
      [(callee.node offset).asObject callee.operator?,
        .branch (.arguments (Token.leftParen.symbolAt opening) (Token.rightParen.symbolAt closing))
          (Range.span ⟨opening, closing + 1⟩) (arguments.nodes (opening + 1))]
  | .access base before after property =>
    let dot := base.infixOffset offset before
    .branch (.getProperty (Token.dot.symbolAt dot))
      ((Phrase.access base before after property).range offset).span
      [(base.node offset).asObject base.operator?, property.node (dot + 1 + size (spread after))]
  | .index base before after index behind =>
    let opening := base.infixOffset offset before
    let second := opening + 1 + size (spread after)
    let closing := index.infixOffset second behind
    .branch
      (.getElement (Token.leftBracket.symbolAt opening) (Token.rightBracket.symbolAt closing))
      ((Phrase.index base before after index behind).range offset).span
      [(base.node offset).asObject base.operator?, index.node second]
  | .array elements =>
    let closing := offset + 1 + size elements.marks
    .branch (.array (Token.leftBracket.symbolAt offset) (Token.rightBracket.symbolAt closing))
      ((Phrase.array elements).range offset).span (elements.nodes (offset + 1) offset)
  | .parens before inner _ => inner.node (offset + 1 + size (spread before))

/-- The concrete trees of arguments. -/
def Arguments.nodes (offset : Nat) : Arguments → List Node
  | .none _ => []
  | .last before argument _ => [argument.node (offset + size (spread before))]
  | .more before argument after rest =>
    let start := offset + size (spread before)
    argument.node start :: rest.nodes (argument.infixOffset start after + 1)

/-- The concrete trees of elements. The placeholder of a hole has the place of the last byte of
what is before it. -/
def Elements.nodes (offset last : Nat) : Elements → List Node
  | .none _ => []
  | .last before element _ => [element.node (offset + size (spread before))]
  | .more before element after rest =>
    let start := offset + size (spread before)
    element.node start ::
      rest.nodes (element.infixOffset start after + 1) ((element.range start).finish - 1)
  | .hole gap rest => .elision last :: rest.nodes (offset + size (spread gap) + 1) last

end

/-! ## Programs -/

/-- A program that consists of an expression statement. -/
structure Sheet where
  before : Gap
  phrase : Phrase
  after : Gap
  /-- The gap behind the semicolon, if there is one. -/
  semicolon : Option Gap

namespace Sheet

variable (sheet : Sheet)

/-- What stands behind the phrase. -/
def rest : List Mark :=
  spread sheet.after ++ sheet.semicolon.elim [] fun gap => .code ';' :: spread gap

def marks : List Mark := spread sheet.before ++ sheet.phrase.marks ++ sheet.rest

/-- Where the phrase begins. -/
def offset : Nat := size (spread sheet.before)

def text : String := String.ofList (Mark.text sheet.marks)

/-- The program that a parser makes of the sheet. -/
def program (uri : String) (statement block : Range) : Program :=
  ⟨uri, ⟨block, .synthetic, [.expression statement (sheet.phrase.expr sheet.offset)]⟩, none⟩

end Sheet

end Written

end Concretion
