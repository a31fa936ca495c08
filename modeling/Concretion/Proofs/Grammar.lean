import Concretion.Abstract.Operator
import Mathlib.Data.List.Basic

/-!
# The grammar of operators

Which operand an operator takes is decided by precedence and associativity. This module reads
sequences of names and marks by these alone, from the left to the right, with a stack of what is
still incomplete.

- `Term`: operator expressions, without their places in a text.
- `Operator.leftLevel`, `Operator.rightLevel`: how strong an operand without parentheses has to be.
- `Reading`, `Reading.step`, `parse`: the parser.
- `Term.lexemes`: a term in writing, with parentheses around operands that are too weak.
- `parse_lexemes`: what is written so is read as the term again.
- `Term.groups_le_of_parse`: no way to write the term has fewer parentheses.
-/

namespace Concretion

/-- An operator expression over names. -/
inductive Term where
  | name (text : String)
  | before (operator : Operator) (operand : Term)
  | after (operator : Operator) (operand : Term)
  | binary (operator : Operator) (left right : Term)
  | conditional (test consequent alternate : Term)
  deriving DecidableEq, Repr

/-- What a term is written with: names on the one hand, operators and punctuation on the other. -/
inductive Lexeme where
  | name (text : String)
  | mark (text : String)
  deriving DecidableEq, Repr

namespace Operator

/-! ## Fixity -/

/-- Is the operator written in front of its operand? A spread belongs to the list in which it
stands, and takes no part in precedence. -/
def isPrefix (op : Operator) : Bool :=
  match op.unaryForm with
  | some (_, .before) | some (_, .construct) | some (_, .yield) => true
  | _ => false

/-- Is the operator written behind its operand? -/
def isPostfix (op : Operator) : Bool :=
  match op.unaryForm with
  | some (_, .after) => true
  | _ => false

/-- Is the operator written between its operands? -/
def isInfix (op : Operator) : Bool := op.binaryForm.isSome

/-- How an operator with one operand is written. -/
def unaryText (op : Operator) : String := (op.unaryForm.map Prod.fst).getD ""

/-- How an operator with two operands is written. -/
def binaryText (op : Operator) : String := (op.binaryForm.map Prod.fst).getD ""

/-- The operator in front of an operand. -/
def prefixOf? (text : String) : Option Operator :=
  all.find? fun op => op.isPrefix && op.unaryText == text

/-- The operator behind an operand. -/
def postfixOf? (text : String) : Option Operator :=
  all.find? fun op => op.isPostfix && op.unaryText == text

/-- The operator between two operands. -/
def infixOf? (text : String) : Option Operator :=
  all.find? fun op => op.isInfix && op.binaryText == text

/-! ## Levels -/

/-- How strong an operand on the left has to be. -/
def leftLevel (op : Operator) : Nat :=
  if op.isRightAssociative then op.precedence + 1 else op.precedence

/-- How strong an operand on the right has to be. -/
def rightLevel (op : Operator) : Nat :=
  if op.isLeftAssociative then op.precedence + 1 else op.precedence

/-- How strong a branch of a conditional has to be: as strong as an assignment. -/
def branchLevel : Nat := assign.rightLevel

/-- What is stronger than every operator. -/
def utmost : Nat := construct.precedence + 1

/-- On the left, parentheses are needed around operators that are weaker than the slot. -/
theorem needsParens_left {outer inner : Operator} (h : inner.precedence ≠ 0) :
    outer.needsParens inner .left = decide (inner.precedence < outer.leftLevel) := by
  unfold needsParens leftLevel
  rw [if_neg (by simpa using h)]
  by_cases heq : outer.precedence = inner.precedence
  · rw [if_pos (by simpa using heq), heq]
    cases outer.isRightAssociative <;> simp
  · rw [if_neg (by simpa using heq)]
    split
    · exact decide_eq_decide.2 (by omega)
    · rfl

/-- On the right, the slot may ask for more. -/
theorem needsParens_right {outer inner : Operator} (h : inner.precedence ≠ 0) :
    outer.needsParens inner .right = decide (inner.precedence < outer.rightLevel) := by
  unfold needsParens rightLevel
  rw [if_neg (by simpa using h)]
  by_cases heq : outer.precedence = inner.precedence
  · rw [if_pos (by simpa using heq), heq]
    cases outer.isLeftAssociative <;> simp
  · rw [if_neg (by simpa using heq)]
    split
    · exact decide_eq_decide.2 (by omega)
    · rfl

/-- Operators of one precedence are associative towards the same side. -/
theorem isLeftAssociative_iff (op : Operator) :
    op.isLeftAssociative = true ↔
      op.precedence = 1 ∨ 4 ≤ op.precedence ∧ op.precedence ≤ 13 := by
  cases op <;> decide

/-- Operators that associate to the left ask for a stronger operand on the right. -/
theorem rightLevel_cases (op : Operator) :
    (op.precedence = 1 ∨ 4 ≤ op.precedence ∧ op.precedence ≤ 13) ∧
        op.rightLevel = op.precedence + 1 ∨
      ¬(op.precedence = 1 ∨ 4 ≤ op.precedence ∧ op.precedence ≤ 13) ∧
        op.rightLevel = op.precedence := by
  rw [← isLeftAssociative_iff, rightLevel]
  cases op.isLeftAssociative with
  | true => exact .inl ⟨rfl, rfl⟩
  | false => exact .inr ⟨Bool.false_ne_true, rfl⟩

/-- Operators that associate to the right ask for a stronger operand on the left. -/
theorem leftLevel_cases (op : Operator) :
    (op.precedence = 2 ∨ op.precedence = 3 ∨ op.precedence = 14) ∧
        op.leftLevel = op.precedence + 1 ∨ op.leftLevel = op.precedence := by
  have hright : op.isRightAssociative = true →
      op.precedence = 2 ∨ op.precedence = 3 ∨ op.precedence = 14 := by
    cases op <;> decide
  rw [leftLevel]
  cases hassociative : op.isRightAssociative with
  | true => exact .inl ⟨hright hassociative, rfl⟩
  | false => exact .inr rfl

/-- Prefix operators have three strengths. -/
theorem precedence_of_isPrefix {op : Operator} (h : op.isPrefix = true) :
    op.precedence = 2 ∨ op.precedence = 15 ∨ op.precedence = 17 := by
  cases op <;> first | decide | cases h

/-- Postfix operators have one. -/
theorem precedence_of_isPostfix {op : Operator} (h : op.isPostfix = true) :
    op.precedence = 16 := by
  cases op <;> first | rfl | cases h

/-- Infix operators are weaker than all others, and the conditional is none of them. -/
theorem precedence_of_isInfix {op : Operator} (h : op.isInfix = true) :
    1 ≤ op.precedence ∧ op.precedence ≤ 14 ∧ op.precedence ≠ 3 := by
  cases op <;> first | decide | cases h

/-- Powers group to the right, and nothing else does between operands but for assignments. -/
theorem leftLevel_of_isInfix {op : Operator} (h : op.isInfix = true) :
    op.isAssignment = true ∨ op.precedence = 14 ∧ op.leftLevel = 15 ∨
      (op.precedence = 1 ∨ 4 ≤ op.precedence ∧ op.precedence ≤ 13) ∧
        op.leftLevel = op.precedence := by
  cases op <;> first | decide | cases h

/-- A prefix operator is known by its text. -/
theorem prefixOf?_unaryText {op : Operator} (h : op.isPrefix = true) :
    prefixOf? op.unaryText = some op := by
  cases op <;> first | rfl | cases h

/-- So is a postfix operator. -/
theorem postfixOf?_unaryText {op : Operator} (h : op.isPostfix = true) :
    postfixOf? op.unaryText = some op := by
  cases op <;> first | rfl | cases h

/-- So is an infix operator, which is no postfix operator by that text. -/
theorem infixOf?_binaryText {op : Operator} (h : op.isInfix = true) :
    infixOf? op.binaryText = some op ∧ postfixOf? op.binaryText = none := by
  cases op <;> first | exact ⟨rfl, rfl⟩ | cases h

/-- Only postfix operators are read behind an operand. -/
theorem isPostfix_of_postfixOf? {text : String} {op : Operator} (h : postfixOf? text = some op) :
    op.isPostfix = true := by
  have hfound := List.find?_some h
  exact (Bool.and_eq_true_iff.1 hfound).1

/-- Only infix operators are read between operands. -/
theorem isInfix_of_infixOf? {text : String} {op : Operator} (h : infixOf? text = some op) :
    op.isInfix = true := by
  have hfound := List.find?_some h
  exact (Bool.and_eq_true_iff.1 hfound).1

end Operator

/-! ## Terms in writing -/

namespace Term

/-- The operator of a term. -/
def operator? : Term → Option Operator
  | name _ => none
  | before op _ | after op _ | binary op _ _ => some op
  | conditional .. => some .conditional

/-- How strong a term is as an operand. -/
def strength (term : Term) : Nat := (term.operator?.map Operator.precedence).getD Operator.utmost

/-- Is every operator where it can stand? -/
def Valid : Term → Prop
  | name _ => True
  | before op operand => op.isPrefix = true ∧ operand.Valid
  | after op operand => op.isPostfix = true ∧ operand.Valid
  | binary op left right => op.isInfix = true ∧ left.Valid ∧ right.Valid ∧
      (op.isAssignment = true → left.operator? = none)
  | conditional test consequent alternate => test.Valid ∧ consequent.Valid ∧ alternate.Valid

end Term

/-- An operand in writing, in parentheses if it must have them. -/
def inParens (grouped : Bool) (lexemes : List Lexeme) : List Lexeme :=
  if grouped then .mark "(" :: (lexemes ++ [.mark ")"]) else lexemes

namespace Term

/-- A term in writing. -/
def lexemes : Term → List Lexeme
  | name text => [.name text]
  | before op operand =>
    .mark op.unaryText :: inParens (operand.strength < op.rightLevel) operand.lexemes
  | after op operand =>
    inParens (operand.strength < op.rightLevel) operand.lexemes ++ [.mark op.unaryText]
  | binary op left right =>
    inParens (left.strength < op.leftLevel) left.lexemes ++ .mark op.binaryText ::
      inParens (right.strength < op.rightLevel) right.lexemes
  | conditional test consequent alternate =>
    inParens (test.strength < Operator.conditional.leftLevel) test.lexemes ++ .mark "?" ::
      (inParens (consequent.strength < Operator.branchLevel) consequent.lexemes ++ .mark ":" ::
        inParens (alternate.strength < Operator.branchLevel) alternate.lexemes)

/-- The number of parentheses around an operand, and inside of it. -/
def groupsAt (level strength groups : Nat) : Nat := groups + if strength < level then 1 else 0

/-- The number of parentheses in a term. -/
def groups : Term → Nat
  | name _ => 0
  | before op operand | after op operand =>
    groupsAt op.rightLevel operand.strength operand.groups
  | binary op left right => groupsAt op.leftLevel left.strength left.groups +
      groupsAt op.rightLevel right.strength right.groups
  | conditional test consequent alternate =>
    groupsAt Operator.conditional.leftLevel test.strength test.groups +
      (groupsAt Operator.branchLevel consequent.strength consequent.groups +
        groupsAt Operator.branchLevel alternate.strength alternate.groups)

/-- The number of parentheses that a term needs as an operand. -/
def cost (term : Term) (level : Nat) : Nat := groupsAt level term.strength term.groups

end Term

/-! ## The parser -/

/-- What has been read of an expression whose last operand is still to come. -/
inductive Frame where
  | before (operator : Operator)
  | between (left : Term) (operator : Operator)
  /-- A conditional up to its question mark. -/
  | test (condition : Term)
  /-- A conditional up to its colon. -/
  | branch (condition consequent : Term)
  | paren
  deriving DecidableEq, Repr

namespace Frame

/-- How strong the operand that is to come has to be. -/
def level : Frame → Nat
  | before op | between _ op => op.rightLevel
  | test _ | branch .. => Operator.branchLevel
  | paren => 0

/-- The expression that the operand completes. -/
def complete : Frame → Term → Option Term
  | before op, operand => some (.before op operand)
  | between left op, operand => some (.binary op left operand)
  | branch condition consequent, operand => some (.conditional condition consequent operand)
  | test _, _ | paren, _ => none

end Frame

/-- How strong an operand has to be that comes next. -/
def levelOf : List Frame → Nat
  | [] => 0
  | frame :: _ => frame.level

/-- Completes what an operator of the given strength takes as its left operand, when it is met
behind an operand. -/
def collapse (strength : Nat) (frames : List Frame) (operand : Term) : List Frame × Term :=
  match frames with
  | [] => ([], operand)
  | frame :: outer =>
    if strength < frame.level then
      match frame.complete operand with
      | some whole => collapse strength outer whole
      | none => (frame :: outer, operand)
    else (frame :: outer, operand)

/-- What has been read so far: the frames, innermost first, and the operand behind them once it is
there. -/
structure Reading where
  frames : List Frame
  operand : Option Term
  deriving DecidableEq, Repr

namespace Reading

/-- Reads an operator of the given strength behind an operand. -/
def meet (strength : Nat) (frames : List Frame) (operand : Term)
    (next : List Frame → Term → Reading) : Option Reading :=
  let (outer, whole) := collapse strength frames operand
  if levelOf outer ≤ strength then some (next outer whole) else none

/-- Reads a mark where an operand may begin. -/
def begin (frames : List Frame) (text : String) : Option Reading :=
  if text == "(" then some ⟨.paren :: frames, none⟩
  else
    match Operator.prefixOf? text with
    | some op => if levelOf frames ≤ op.precedence then some ⟨.before op :: frames, none⟩ else none
    | none => none

/-- Reads a mark behind an operand. -/
def proceed (frames : List Frame) (operand : Term) (text : String) : Option Reading :=
  if text == ")" then
    match collapse 0 frames operand with
    | (.paren :: outer, inner) => some ⟨outer, some inner⟩
    | _ => none
  else if text == ":" then
    match collapse 0 frames operand with
    | (.test test :: outer, consequent) => some ⟨.branch test consequent :: outer, none⟩
    | _ => none
  else if text == "?" then
    meet Operator.conditional.precedence frames operand fun outer test =>
      ⟨.test test :: outer, none⟩
  else
    match Operator.postfixOf? text, Operator.infixOf? text with
    | some op, _ =>
      meet op.precedence frames operand fun outer inner => ⟨outer, some (.after op inner)⟩
    | none, some op =>
      meet op.precedence frames operand fun outer left => ⟨.between left op :: outer, none⟩
    | none, none => none

/-- Reads on. Two operands must not meet, nor two operators that need one between them. -/
def step (reading : Reading) (lexeme : Lexeme) : Option Reading :=
  match reading.operand, lexeme with
  | none, .name text => some ⟨reading.frames, some (.name text)⟩
  | none, .mark text => begin reading.frames text
  | some _, .name _ => none
  | some operand, .mark text => proceed reading.frames operand text

/-- What has been read, if it is complete. -/
def finish (reading : Reading) : Option Term :=
  match reading.operand.map (collapse 0 reading.frames) with
  | some ([], whole) => some whole
  | _ => none

end Reading

/-- The expression that the lexemes write, by precedence and associativity. -/
def parse (lexemes : List Lexeme) : Option Term :=
  (lexemes.foldlM Reading.step ⟨[], none⟩).bind Reading.finish

/-! ## What is written is read again -/

/-- Frames that are not stronger stay open. -/
theorem collapse_of_le {strength : Nat} {frames : List Frame} (h : levelOf frames ≤ strength)
    (operand : Term) : collapse strength frames operand = (frames, operand) := by
  cases frames with
  | nil => rfl
  | cons frame outer =>
    have hweak : ¬strength < frame.level := Nat.not_lt.2 h
    rw [collapse, if_neg hweak]

/-- A frame that is stronger is closed around the operand, and then the next one is looked at. -/
theorem collapse_of_complete {strength : Nat} {frame : Frame} {operand whole : Term}
    (hlevel : strength < frame.level) (hwhole : frame.complete operand = some whole)
    (outer : List Frame) :
    collapse strength (frame :: outer) operand = collapse strength outer whole := by
  rw [collapse, if_pos hlevel, hwhole]

namespace Term

/-- An operator of the given strength behind the term takes all of it as its left operand. -/
def YieldsTo (strength : Nat) : Term → Prop
  | name _ | after .. => True
  | before op _ | binary op _ _ => strength < op.rightLevel
  | conditional .. => strength < Operator.branchLevel

/-- A term in its place on the right of an operator, or in a branch, yields to whatever that
operator or conditional yields to. -/
theorem yieldsTo_of_lt {term : Term} {level strength : Nat} (hlevel : level ≤ term.strength)
    (hbranch : level ≠ 3) (h : strength < level) : term.YieldsTo strength := by
  have hbelow : Operator.branchLevel = 2 := rfl
  cases term with
  | name _ => trivial
  | after op operand => trivial
  | before op operand =>
    have hright := op.rightLevel_cases
    change level ≤ op.precedence at hlevel
    change strength < op.rightLevel
    omega
  | binary op left right =>
    have hright := op.rightLevel_cases
    change level ≤ op.precedence at hlevel
    change strength < op.rightLevel
    omega
  | conditional test consequent alternate =>
    change level ≤ 3 at hlevel
    change strength < Operator.branchLevel
    omega

/-- A term in its place on the left of an operator yields to that operator. -/
theorem yieldsTo_of_left {op : Operator} {term : Term} (hop : op.isInfix = true)
    (hvalid : term.Valid) (hassign : op.isAssignment = true → term.operator? = none)
    (h : op.leftLevel ≤ term.strength) : term.YieldsTo op.precedence := by
  have hbelow : Operator.branchLevel = 2 := rfl
  -- the left operand of an assignment has no operator
  have hplain : ∀ inner, term.operator? = some inner →
      op.precedence = 14 ∧ op.leftLevel = 15 ∨
        (op.precedence = 1 ∨ 4 ≤ op.precedence ∧ op.precedence ≤ 13) ∧
          op.leftLevel = op.precedence := by
    intro inner hinner
    refine (Operator.leftLevel_of_isInfix hop).resolve_left fun heq => ?_
    rw [hassign heq] at hinner
    cases hinner
  cases term with
  | name _ => trivial
  | after operator operand => trivial
  | before operator operand =>
    have hleft := hplain operator rfl
    have hright := operator.rightLevel_cases
    have hfront := Operator.precedence_of_isPrefix hvalid.1
    change op.leftLevel ≤ operator.precedence at h
    change op.precedence < operator.rightLevel
    omega
  | binary operator left right =>
    have hleft := hplain operator rfl
    have hright := operator.rightLevel_cases
    change op.leftLevel ≤ operator.precedence at h
    change op.precedence < operator.rightLevel
    omega
  | conditional test consequent alternate =>
    have hleft := hplain .conditional rfl
    change op.leftLevel ≤ 3 at h
    change op.precedence < Operator.branchLevel
    omega

/-- Where nothing more comes, every term is complete. -/
theorem yieldsTo_zero {term : Term} (h : term.Valid) : term.YieldsTo 0 := by
  cases term with
  | name _ => trivial
  | after op operand => trivial
  | before op operand =>
    have hright := op.rightLevel_cases
    have hfront := Operator.precedence_of_isPrefix h.1
    change 0 < op.rightLevel
    omega
  | binary op left right =>
    have hright := op.rightLevel_cases
    have hbetween := Operator.precedence_of_isInfix h.1
    change 0 < op.rightLevel
    omega
  | conditional test consequent alternate => exact Nat.zero_lt_two

/-- A term in its place in front of an operator without a further operand yields to it. -/
theorem yieldsTo_of_isPostfix {op : Operator} {term : Term} (hop : op.isPostfix = true)
    (hvalid : term.Valid) (h : op.rightLevel ≤ term.strength) : term.YieldsTo op.precedence := by
  have hright := op.rightLevel_cases
  have hbehind := Operator.precedence_of_isPostfix hop
  cases term with
  | name _ => trivial
  | after operator operand => trivial
  | before operator operand =>
    have hinner := operator.rightLevel_cases
    have hfront := Operator.precedence_of_isPrefix hvalid.1
    change op.rightLevel ≤ operator.precedence at h
    change op.precedence < operator.rightLevel
    omega
  | binary operator left right =>
    have hbetween := Operator.precedence_of_isInfix hvalid.1
    change op.rightLevel ≤ operator.precedence at h
    omega
  | conditional test consequent alternate =>
    change op.rightLevel ≤ 3 at h
    omega

end Term

namespace Reading

/-! ### Steps -/

variable {op : Operator} {frames inner : List Frame} {operand last : Term}

/-- A prefix operator opens a frame in front of its operand. -/
theorem step_before (hop : op.isPrefix = true) (hlevel : levelOf frames ≤ op.precedence) :
    step ⟨frames, none⟩ (.mark op.unaryText) = some ⟨.before op :: frames, none⟩ := by
  have hplain : (op.unaryText == "(") = false := by cases op <;> rfl
  show begin frames op.unaryText = _
  rw [begin, hplain, Operator.prefixOf?_unaryText hop, if_neg Bool.false_ne_true]
  exact if_pos hlevel

/-- What has been collapsed fits in, so the next step can be done. -/
theorem meet_eq {strength : Nat} (hcollapse : collapse strength inner last = (frames, operand))
    (hlevel : levelOf frames ≤ strength) (next : List Frame → Term → Reading) :
    meet strength inner last next = some (next frames operand) := by
  rw [meet, hcollapse]
  exact if_pos hlevel

/-- A postfix operator takes what has been collapsed as its operand. -/
theorem step_after (hop : op.isPostfix = true)
    (hcollapse : collapse op.precedence inner last = (frames, operand))
    (hlevel : levelOf frames ≤ op.precedence) :
    step ⟨inner, some last⟩ (.mark op.unaryText) = some ⟨frames, some (.after op operand)⟩ := by
  have hplain : (op.unaryText == ")") = false ∧ (op.unaryText == ":") = false ∧
      (op.unaryText == "?") = false := by
    cases op <;> exact ⟨rfl, rfl, rfl⟩
  show proceed inner last op.unaryText = _
  rw [proceed, hplain.1, hplain.2.1, hplain.2.2, Operator.postfixOf?_unaryText hop]
  simp only [Bool.false_eq_true, if_false]
  exact meet_eq hcollapse hlevel _

/-- An infix operator takes what has been collapsed as its left operand. -/
theorem step_between (hop : op.isInfix = true)
    (hcollapse : collapse op.precedence inner last = (frames, operand))
    (hlevel : levelOf frames ≤ op.precedence) :
    step ⟨inner, some last⟩ (.mark op.binaryText) =
      some ⟨.between operand op :: frames, none⟩ := by
  have hplain : (op.binaryText == ")") = false ∧ (op.binaryText == ":") = false ∧
      (op.binaryText == "?") = false := by
    cases op <;> exact ⟨rfl, rfl, rfl⟩
  obtain ⟨hbetween, hbehind⟩ := Operator.infixOf?_binaryText hop
  show proceed inner last op.binaryText = _
  rw [proceed, hplain.1, hplain.2.1, hplain.2.2, hbetween, hbehind]
  simp only [Bool.false_eq_true, if_false]
  exact meet_eq hcollapse hlevel _

/-- A question mark takes what has been collapsed as the test. -/
theorem step_question (hcollapse : collapse Operator.conditional.precedence inner last =
      (frames, operand)) (hlevel : levelOf frames ≤ Operator.conditional.precedence) :
    step ⟨inner, some last⟩ (.mark "?") = some ⟨.test operand :: frames, none⟩ := by
  show proceed inner last "?" = _
  rw [proceed, if_neg (by decide), if_neg (by decide), if_pos (by decide)]
  exact meet_eq hcollapse hlevel _

/-- A colon ends the consequent, which has been collapsed down to its test. -/
theorem step_colon {condition : Term}
    (hcollapse : collapse 0 inner last = (.test condition :: frames, operand)) :
    step ⟨inner, some last⟩ (.mark ":") = some ⟨.branch condition operand :: frames, none⟩ := by
  show (match collapse 0 inner last with
    | (.test condition :: outer, consequent) =>
      some (⟨.branch condition consequent :: outer, none⟩ : Reading)
    | _ => none) = _
  rw [hcollapse]

/-- A closing parenthesis ends what has been collapsed down to the opening one. -/
theorem step_close (hcollapse : collapse 0 inner last = (.paren :: frames, operand)) :
    step ⟨inner, some last⟩ (.mark ")") = some ⟨frames, some operand⟩ := by
  show (match collapse 0 inner last with
    | (.paren :: outer, operand) => some (⟨outer, some operand⟩ : Reading)
    | _ => none) = _
  rw [hcollapse]

/-! ### Runs -/

/-- Reads several lexemes. -/
def reads (reading : Reading) (lexemes : List Lexeme) : Option Reading :=
  lexemes.foldlM step reading

@[simp] theorem reads_nil (reading : Reading) : reading.reads [] = some reading := rfl

/-- The first lexeme makes a step, the others are read after it. -/
theorem reads_cons {reading next : Reading} {lexeme : Lexeme}
    (h : reading.step lexeme = some next) (rest : List Lexeme) :
    reading.reads (lexeme :: rest) = next.reads rest := by
  rw [reads, List.foldlM_cons, h]
  rfl

/-- What has been read in one go can be read in two. -/
theorem reads_append {reading next : Reading} {lexemes : List Lexeme}
    (h : reading.reads lexemes = some next) (rest : List Lexeme) :
    reading.reads (lexemes ++ rest) = next.reads rest := by
  have hfirst : lexemes.foldlM step reading = some next := h
  rw [reads, List.foldlM_append, hfirst]
  rfl

end Reading

open Reading

/-- From a place where an operand of the level may begin, the lexemes are read as the term: an
operator that the term yields to cannot tell the difference. -/
def ReadAs (lexemes : List Lexeme) (term : Term) (level : Nat) (yields : Nat → Prop) : Prop :=
  ∀ frames : List Frame, levelOf frames ≤ level →
    ∃ inner last, Reading.reads ⟨frames, none⟩ lexemes = some ⟨inner, some last⟩ ∧
      ∀ strength, yields strength → collapse strength inner last = collapse strength frames term

/-- A term in writing is read as the term wherever an operand as strong as the term may begin. -/
def Term.Readable (term : Term) : Prop :=
  ReadAs term.lexemes term term.strength (term.YieldsTo ·)

namespace Term.Readable

variable {op : Operator}

/-- In parentheses, a term may stand anywhere. -/
theorem operand {term : Term} (h : term.Readable) (hvalid : term.Valid) (level : Nat) :
    ReadAs (inParens (term.strength < level) term.lexemes) term level
      fun strength => level ≤ term.strength → term.YieldsTo strength := by
  intro frames hlevel
  by_cases hgrouped : term.strength < level
  · obtain ⟨inner, last, hreads, hcollapse⟩ := h (.paren :: frames) (Nat.zero_le _)
    have hopen : step ⟨frames, none⟩ (.mark "(") = some ⟨.paren :: frames, none⟩ := rfl
    have hinner : collapse 0 inner last = (.paren :: frames, term) :=
      (hcollapse 0 (yieldsTo_zero hvalid)).trans (collapse_of_le (Nat.le_refl 0) term)
    refine ⟨frames, term, ?_, fun _ _ => rfl⟩
    rw [inParens, if_pos (decide_eq_true hgrouped), reads_cons hopen, reads_append hreads,
      reads_cons (step_close hinner), reads_nil]
  · have hle : level ≤ term.strength := Nat.not_lt.1 hgrouped
    obtain ⟨inner, last, hreads, hcollapse⟩ := h frames (Nat.le_trans hlevel hle)
    refine ⟨inner, last, ?_, fun strength hyields => hcollapse strength (hyields hle)⟩
    rw [inParens, if_neg (by simpa using hgrouped)]
    exact hreads

/-- The operator opens a frame, the operand is read, and the frame is closed by what follows. -/
theorem before {operand : Term} (h : operand.Readable) (hvalid : operand.Valid)
    (hop : op.isPrefix = true) : (Term.before op operand).Readable := by
  intro frames hlevel
  have hfront := Operator.precedence_of_isPrefix hop
  have hright := op.rightLevel_cases
  obtain ⟨inner, last, hreads, hcollapse⟩ :=
    h.operand hvalid op.rightLevel (.before op :: frames) (Nat.le_refl _)
  refine ⟨inner, last, ?_, fun strength hyields => ?_⟩
  · rw [lexemes, reads_cons (step_before hop hlevel), hreads]
  · rw [hcollapse strength fun hle => yieldsTo_of_lt hle (by omega) hyields]
    exact collapse_of_complete hyields rfl frames

/-- The operand is read and collapsed, and the operator takes it. -/
theorem after {operand : Term} (h : operand.Readable) (hvalid : operand.Valid)
    (hop : op.isPostfix = true) : (Term.after op operand).Readable := by
  intro frames hlevel
  have hright := op.rightLevel_cases
  have hlevel : levelOf frames ≤ op.precedence := hlevel
  obtain ⟨inner, last, hreads, hcollapse⟩ :=
    h.operand hvalid op.rightLevel frames (by omega)
  have hmet : collapse op.precedence inner last = (frames, operand) :=
    (hcollapse _ (yieldsTo_of_isPostfix hop hvalid)).trans (collapse_of_le hlevel operand)
  refine ⟨frames, .after op operand, ?_, fun _ _ => rfl⟩
  rw [lexemes, reads_append hreads, reads_cons (step_after hop hmet hlevel), reads_nil]

/-- The left operand is taken by the operator, and the right one is read in its frame. -/
theorem binary {left right : Term} (hl : left.Readable) (hr : right.Readable)
    (hvalid : (Term.binary op left right).Valid) : (Term.binary op left right).Readable := by
  intro frames hlevel
  obtain ⟨hop, hleft, hright, hassign⟩ := hvalid
  have hbetween := Operator.precedence_of_isInfix hop
  have hrightLevel := op.rightLevel_cases
  have hleftLevel := op.leftLevel_cases
  have hlevel : levelOf frames ≤ op.precedence := hlevel
  -- the operator takes the left operand as a whole, and nothing of what is in front of it
  obtain ⟨inner, last, hreads, hcollapse⟩ := hl.operand hleft op.leftLevel frames (by omega)
  have hmet : collapse op.precedence inner last = (frames, left) :=
    (hcollapse _ (yieldsTo_of_left hop hleft hassign)).trans (collapse_of_le hlevel left)
  obtain ⟨inner', last', hreads', hcollapse'⟩ :=
    hr.operand hright op.rightLevel (.between left op :: frames) (Nat.le_refl _)
  refine ⟨inner', last', ?_, fun strength hyields => ?_⟩
  · rw [lexemes, reads_append hreads, reads_cons (step_between hop hmet hlevel), hreads']
  · rw [hcollapse' strength fun hle => yieldsTo_of_lt hle (by omega) hyields]
    exact collapse_of_complete hyields rfl frames

/-- Test and consequent are taken by their marks, and the alternate is read in the last frame. -/
theorem conditional {test consequent alternate : Term} (ht : test.Readable)
    (hc : consequent.Readable) (ha : alternate.Readable)
    (hvalid : (Term.conditional test consequent alternate).Valid) :
    (Term.conditional test consequent alternate).Readable := by
  intro frames hlevel
  obtain ⟨htest, hconsequent, halternate⟩ := hvalid
  have hlevel : levelOf frames ≤ 3 := hlevel
  obtain ⟨inner, last, hreads, hcollapse⟩ :=
    ht.operand htest Operator.conditional.leftLevel frames (Nat.le_succ_of_le hlevel)
  have hmet : collapse 3 inner last = (frames, test) := by
    refine (hcollapse 3 fun hle => ?_).trans (collapse_of_le hlevel test)
    exact yieldsTo_of_lt hle (by decide) (by decide)
  -- up to the colon nothing closes the question mark off
  obtain ⟨inner', last', hreads', hcollapse'⟩ :=
    hc.operand hconsequent Operator.branchLevel (.test test :: frames) (Nat.le_refl _)
  have hbranch : collapse 0 inner' last' = (.test test :: frames, consequent) :=
    hcollapse' 0 fun _ => yieldsTo_zero hconsequent
  obtain ⟨inner'', last'', hreads'', hcollapse''⟩ :=
    ha.operand halternate Operator.branchLevel (.branch test consequent :: frames) (Nat.le_refl _)
  refine ⟨inner'', last'', ?_, fun strength hyields => ?_⟩
  · rw [lexemes, reads_append hreads, reads_cons (step_question hmet hlevel),
      reads_append hreads', reads_cons (step_colon hbranch), hreads'']
  · rw [hcollapse'' strength fun hle => yieldsTo_of_lt hle (by decide) hyields]
    exact collapse_of_complete hyields rfl frames

end Term.Readable

/-- By induction on the term, with one lemma for each way to build it. -/
theorem Term.readable {term : Term} (hvalid : term.Valid) : term.Readable := by
  induction term with
  | name text => exact fun frames _ => ⟨frames, .name text, rfl, fun _ _ => rfl⟩
  | before op operand ih => exact (ih hvalid.2).before hvalid.2 hvalid.1
  | after op operand ih => exact (ih hvalid.2).after hvalid.2 hvalid.1
  | binary op left right ihleft ihright =>
    exact (ihleft hvalid.2.1).binary (ihright hvalid.2.2.1) hvalid
  | conditional test consequent alternate ihtest ihconsequent ihalternate =>
    exact (ihtest hvalid.1).conditional (ihconsequent hvalid.2.1) (ihalternate hvalid.2.2) hvalid

/-- What is written with the parentheses that precedence and associativity ask for is read as the
term that was written. -/
theorem parse_lexemes {term : Term} (hvalid : term.Valid) : parse term.lexemes = some term := by
  obtain ⟨inner, last, hreads, hcollapse⟩ := Term.readable hvalid [] (Nat.zero_le _)
  have hfirst : term.lexemes.foldlM step ⟨[], none⟩ = some ⟨inner, some last⟩ := hreads
  have hwhole : collapse 0 inner last = ([], term) := hcollapse 0 (Term.yieldsTo_zero hvalid)
  rw [parse, hfirst, Option.bind_some]
  show (match some (collapse 0 inner last) with
    | some ([], whole) => some whole
    | _ => none) = _
  rw [hwhole]

/-! ## No parentheses are superfluous -/

namespace Term

/-- At a level, a term costs its groups and perhaps one more. -/
theorem groups_le_cost (term : Term) (level : Nat) : term.groups ≤ term.cost level :=
  Nat.le_add_right _ _

/-- It is one more at most. -/
theorem cost_le_succ (term : Term) (level : Nat) : term.cost level ≤ term.groups + 1 := by
  unfold cost groupsAt
  split <;> omega

/-- A stronger level may ask for parentheses that a weaker one does not. -/
theorem cost_mono (term : Term) {level stronger : Nat} (h : level ≤ stronger) :
    term.cost level ≤ term.cost stronger := by
  unfold cost groupsAt
  split <;> split <;> omega

/-- A term needs no parentheses where an operand as strong as itself may stand. -/
theorem cost_of_le {term : Term} {level : Nat} (h : level ≤ term.strength) :
    term.cost level = term.groups := by
  unfold cost groupsAt
  rw [if_neg (Nat.not_lt.2 h)]
  rfl

end Term

namespace Frame

/-- How strong the expression is that the frame belongs to. -/
def strength : Frame → Nat
  | before op | between _ op => op.precedence
  | test _ | branch .. => Operator.conditional.precedence
  | paren => Operator.utmost

/-- The number of parentheses in what has been read of the expression. -/
def groups : Frame → Nat
  | before _ => 0
  | between left op => left.cost op.leftLevel
  | test condition => condition.cost Operator.conditional.leftLevel
  | branch condition consequent =>
    condition.cost Operator.conditional.leftLevel + consequent.cost Operator.branchLevel
  | paren => 1

/-- No frame is stronger than the strongest level. -/
theorem level_le (frame : Frame) : frame.level ≤ Operator.utmost := by
  have hoperator : ∀ op : Operator, op.rightLevel ≤ Operator.utmost := by
    intro op
    cases op <;> decide
  cases frame with
  | before op => exact hoperator op
  | between left op => exact hoperator op
  | test condition => exact hoperator .assign
  | branch condition consequent => exact hoperator .assign
  | paren => exact Nat.zero_le _

/-- What an operator completes is strong enough to be its left operand. -/
theorem leftLevel_le {frame : Frame} {op : Operator} (h : op.precedence < frame.level) :
    op.leftLevel ≤ frame.strength := by
  have hleft := op.leftLevel_cases
  have hbranch : Operator.branchLevel = 2 := rfl
  cases frame with
  | before operator =>
    have hright := operator.rightLevel_cases
    change op.precedence < operator.rightLevel at h
    change op.leftLevel ≤ operator.precedence
    omega
  | between left operator =>
    have hright := operator.rightLevel_cases
    change op.precedence < operator.rightLevel at h
    change op.leftLevel ≤ operator.precedence
    omega
  | test condition =>
    change op.precedence < Operator.branchLevel at h
    change op.leftLevel ≤ 3
    omega
  | branch condition consequent =>
    change op.precedence < Operator.branchLevel at h
    change op.leftLevel ≤ 3
    omega
  | paren => cases h

/-- A completed frame has the groups of the frame and what the operand costs in it. -/
theorem groups_of_complete {frame : Frame} {operand whole : Term}
    (h : frame.complete operand = some whole) :
    whole.strength = frame.strength ∧ whole.groups = frame.groups + operand.cost frame.level := by
  cases frame with
  | before op =>
    cases h
    exact ⟨rfl, (Nat.zero_add _).symm⟩
  | between left op =>
    cases h
    exact ⟨rfl, rfl⟩
  | test condition => cases h
  | branch condition consequent =>
    cases h
    exact ⟨rfl, (Nat.add_assoc _ _ _).symm⟩
  | paren => cases h

end Frame

/-- The number of parentheses in what has been read. -/
def groupsOf : List Frame → Nat
  | [] => 0
  | frame :: outer => frame.groups + groupsOf outer

/-- Is every expression strong enough to stand where it does? -/
def Nested : List Frame → Prop
  | [] => True
  | frame :: outer => levelOf outer ≤ frame.strength ∧ Nested outer

/-- The innermost frame is no stronger than the strongest level. -/
theorem levelOf_le (frames : List Frame) : levelOf frames ≤ Operator.utmost := by
  cases frames with
  | nil => exact Nat.zero_le _
  | cons frame outer => exact frame.level_le

/-- Completing expressions needs no parentheses beyond those that have been read. -/
theorem collapse_covered {strength count bound : Nat} {frames outer : List Frame}
    {operand whole : Term} (hcollapse : collapse strength frames operand = (outer, whole))
    (hnested : Nested frames) (hlevel : levelOf frames ≤ bound)
    (hcovered : groupsOf frames + operand.cost bound ≤ count) :
    Nested outer ∧ ∃ reached, levelOf outer ≤ reached ∧
      groupsOf outer + whole.cost reached ≤ count ∧
      (reached = bound ∨ ∃ frame : Frame, strength < frame.level ∧ reached = frame.strength) := by
  -- What is read so far never has more groups than there are parentheses. Completing a frame turns
  -- its operand into a part of the frame, at no greater cost.
  induction frames generalizing operand bound with
  | nil =>
    cases hcollapse
    exact ⟨hnested, bound, hlevel, hcovered, .inl rfl⟩
  | cons frame rest ih =>
    rw [collapse] at hcollapse
    split at hcollapse
    · next hstrong =>
      split at hcollapse
      · next made hmade =>
        obtain ⟨hstrength, hgroups⟩ := Frame.groups_of_complete hmade
        have hcost : made.cost frame.strength = made.groups :=
          Term.cost_of_le (Nat.le_of_eq hstrength.symm)
        have hmono : operand.cost frame.level ≤ operand.cost bound := operand.cost_mono hlevel
        have hrest : groupsOf rest + made.cost frame.strength ≤ count := by
          rw [groupsOf] at hcovered
          omega
        obtain ⟨houter, reached, hreached, hpaid, hwhy⟩ :=
          ih hcollapse hnested.2 hnested.1 hrest
        refine ⟨houter, reached, hreached, hpaid, .inr ?_⟩
        rcases hwhy with rfl | hframe
        · exact ⟨frame, hstrong, rfl⟩
        · exact hframe
      · cases hcollapse
        exact ⟨hnested, bound, hlevel, hcovered, .inl rfl⟩
    · cases hcollapse
      exact ⟨hnested, bound, hlevel, hcovered, .inl rfl⟩

namespace Reading

/-- As many parentheses have been read as there are in what has been read. An operand that is there
may be used wherever one of the strength of postfix operators may stand. -/
structure Covered (reading : Reading) (count : Nat) : Prop where
  nested : Nested reading.frames
  operator : reading.operand = none → groupsOf reading.frames ≤ count
  operand : ∀ term ∈ reading.operand, ∃ bound, 16 ≤ bound ∧ levelOf reading.frames ≤ bound ∧
    groupsOf reading.frames + term.cost bound ≤ count

/-- A step is done with what has been collapsed, which fits into the outer frames. -/
theorem ok_of_meet {strength : Nat} {frames : List Frame} {operand : Term}
    {next : List Frame → Term → Reading} {reading : Reading}
    (h : meet strength frames operand next = some reading) :
    ∃ outer whole, collapse strength frames operand = (outer, whole) ∧ levelOf outer ≤ strength ∧
      reading = next outer whole := by
  rw [meet] at h
  dsimp only at h
  split at h
  · next hlevel =>
    cases h
    exact ⟨_, _, rfl, hlevel, rfl⟩
  · cases h

namespace Covered

variable {frames : List Frame} {operand : Term} {count : Nat}

/-- A frame waits for an operand. -/
theorem waiting (hnested : Nested frames) (h : groupsOf frames ≤ count) :
    Covered ⟨frames, none⟩ count :=
  ⟨hnested, fun _ => h, fun _ hnone => by cases hnone⟩

/-- An operand may stand anywhere. -/
theorem primary (hnested : Nested frames) (h : groupsOf frames + operand.groups + 1 ≤ count) :
    Covered ⟨frames, some operand⟩ count := by
  refine ⟨hnested, nofun, fun term hterm => ⟨Operator.utmost, by decide, levelOf_le frames, ?_⟩⟩
  cases hterm
  have hcost := operand.cost_le_succ Operator.utmost
  show groupsOf frames + _ ≤ _
  omega

/-- An operator that takes what is complete as its left operand. -/
theorem met (h : Covered ⟨frames, some operand⟩ count) {op : Operator} {reading : Reading}
    {next : List Frame → Term → Reading} (hop : op.leftLevel ≤ 16)
    (hmeet : meet op.precedence frames operand next = some reading) :
    ∃ outer whole, reading = next outer whole ∧ Nested outer ∧ levelOf outer ≤ op.precedence ∧
      groupsOf outer + whole.cost op.leftLevel ≤ count := by
  obtain ⟨outer, whole, hcollapse, hlevel, rfl⟩ := ok_of_meet hmeet
  obtain ⟨bound, hbound, hframes, hcovered⟩ := h.operand operand rfl
  obtain ⟨hnested, reached, -, hpaid, hwhy⟩ :=
    collapse_covered hcollapse h.nested hframes hcovered
  have hle : op.leftLevel ≤ reached := by
    rcases hwhy with rfl | ⟨frame, hstrong, rfl⟩
    · exact Nat.le_trans hop hbound
    · exact Frame.leftLevel_le hstrong
  have hmono := whole.cost_mono hle
  exact ⟨outer, whole, rfl, hnested, hlevel, by omega⟩

/-- An opening parenthesis counts for one group, any other beginning for none. -/
theorem begin {text : String} {reading : Reading} (h : Covered ⟨frames, none⟩ count)
    (hbegin : Reading.begin frames text = some reading) :
    reading.Covered (count + if text = "(" then 1 else 0) := by
  have hgroups : groupsOf frames ≤ count := h.operator rfl
  rw [Reading.begin] at hbegin
  split at hbegin
  · next hopen =>
    cases hbegin
    rw [if_pos (eq_of_beq hopen)]
    refine .waiting ⟨levelOf_le frames, h.nested⟩ ?_
    show 1 + groupsOf frames ≤ count + 1
    omega
  · split at hbegin
    · next op hop =>
      split at hbegin
      · next hlevel =>
        cases hbegin
        refine .waiting ⟨hlevel, h.nested⟩ ?_
        show 0 + groupsOf frames ≤ _
        omega
      · cases hbegin
    · cases hbegin

/-- The opening parenthesis of a group has been counted. -/
theorem closed (h : Covered ⟨frames, some operand⟩ count) {outer : List Frame} {inner : Term}
    (hcollapse : collapse 0 frames operand = (.paren :: outer, inner)) :
    Covered ⟨outer, some inner⟩ count := by
  obtain ⟨bound, -, hframes, hcovered⟩ := h.operand operand rfl
  obtain ⟨hnested, reached, -, hpaid, -⟩ := collapse_covered hcollapse h.nested hframes hcovered
  have hgroups := inner.groups_le_cost reached
  have hframe : groupsOf (.paren :: outer) = 1 + groupsOf outer := rfl
  exact .primary hnested.2 (by omega)

/-- The colon moves the consequent into the frame, at the cost that it has there. -/
theorem branched (h : Covered ⟨frames, some operand⟩ count) {outer : List Frame}
    {condition consequent : Term}
    (hcollapse : collapse 0 frames operand = (.test condition :: outer, consequent)) :
    Covered ⟨.branch condition consequent :: outer, none⟩ count := by
  obtain ⟨bound, -, hframes, hcovered⟩ := h.operand operand rfl
  obtain ⟨hnested, reached, hreached, hpaid, -⟩ :=
    collapse_covered hcollapse h.nested hframes hcovered
  have hmono := consequent.cost_mono hreached
  refine .waiting hnested ?_
  simp only [groupsOf, Frame.groups, levelOf, Frame.level] at hpaid hmono ⊢
  omega

/-- The question mark moves the test into a frame. -/
theorem tested (h : Covered ⟨frames, some operand⟩ count) {reading : Reading}
    (hmeet : meet Operator.conditional.precedence frames operand
      (fun outer test => ⟨.test test :: outer, none⟩) = some reading) : reading.Covered count := by
  obtain ⟨outer, whole, rfl, hnested, hlevel, hpaid⟩ := h.met (by decide) hmeet
  refine .waiting ⟨hlevel, hnested⟩ ?_
  rw [groupsOf, Frame.groups]
  omega

/-- The operator is put around its operand. -/
theorem applied (h : Covered ⟨frames, some operand⟩ count) {op : Operator} {reading : Reading}
    (hop : op.isPostfix = true) (hmeet : meet op.precedence frames operand
      (fun outer inner => ⟨outer, some (.after op inner)⟩) = some reading) :
    reading.Covered count := by
  have hstrength := Operator.precedence_of_isPostfix hop
  have hleft := op.leftLevel_cases
  have hright := op.rightLevel_cases
  obtain ⟨outer, whole, rfl, hnested, hlevel, hpaid⟩ := h.met (by omega) hmeet
  have hbelow : levelOf outer ≤ 16 := by omega
  refine ⟨hnested, nofun, fun term hterm => ⟨16, Nat.le_refl _, hbelow, ?_⟩⟩
  cases hterm
  rw [Term.cost_of_le (show 16 ≤ op.precedence by omega)]
  show groupsOf outer + whole.cost op.rightLevel ≤ count
  rw [show op.rightLevel = op.leftLevel by omega]
  exact hpaid

/-- The operator moves the left operand into a frame. -/
theorem joined (h : Covered ⟨frames, some operand⟩ count) {op : Operator} {reading : Reading}
    (hop : op.isInfix = true) (hmeet : meet op.precedence frames operand
      (fun outer left => ⟨.between left op :: outer, none⟩) = some reading) :
    reading.Covered count := by
  have hstrength := Operator.precedence_of_isInfix hop
  have hleft := op.leftLevel_cases
  obtain ⟨outer, whole, rfl, hnested, hlevel, hpaid⟩ := h.met (by omega) hmeet
  refine .waiting ⟨hlevel, hnested⟩ ?_
  rw [groupsOf, Frame.groups]
  omega

/-- Behind an operand no group is opened, whatever comes. -/
theorem proceed {text : String} {reading : Reading} (h : Covered ⟨frames, some operand⟩ count)
    (hproceed : Reading.proceed frames operand text = some reading) : reading.Covered count := by
  rw [Reading.proceed] at hproceed
  split at hproceed
  · -- a closing parenthesis
    split at hproceed
    · next outer inner hcollapse =>
      cases hproceed
      exact h.closed hcollapse
    · cases hproceed
  · split at hproceed
    · -- a colon
      split at hproceed
      · next condition outer consequent hcollapse =>
        cases hproceed
        exact h.branched hcollapse
      · cases hproceed
    · split at hproceed
      · exact h.tested hproceed
      · split at hproceed
        · next op hop => exact h.applied (Operator.isPostfix_of_postfixOf? hop) hproceed
        · next op hnone hop => exact h.joined (Operator.isInfix_of_infixOf? hop) hproceed
        · cases hproceed

/-- Reading on keeps account of the parentheses. -/
theorem step {reading next : Reading} {lexeme : Lexeme} (h : reading.Covered count)
    (hstep : reading.step lexeme = some next) :
    next.Covered (count + [lexeme].count (.mark "(")) := by
  obtain ⟨frames, operand⟩ := reading
  cases operand with
  | none =>
    have hgroups := h.operator rfl
    cases lexeme with
    | name text =>
      cases hstep
      refine ⟨h.nested, nofun, fun term hterm =>
        ⟨Operator.utmost, by decide, levelOf_le frames, ?_⟩⟩
      cases hterm
      have hcost : (Term.name text).cost Operator.utmost = 0 := Term.cost_of_le (Nat.le_refl _)
      rw [hcost]
      exact Nat.le_trans hgroups (Nat.le_add_right _ _)
    | mark text =>
      have hbegin := h.begin hstep
      rw [List.count_singleton]
      simpa using hbegin
  | some operand =>
    cases lexeme with
    | name text => cases hstep
    | mark text =>
      obtain ⟨hnested, hoperator, hoperand⟩ := h.proceed hstep
      refine ⟨hnested, fun hnone => Nat.le_trans (hoperator hnone) (Nat.le_add_right _ _), ?_⟩
      intro term hterm
      obtain ⟨bound, hbound, hlevel, hcovered⟩ := hoperand term hterm
      exact ⟨bound, hbound, hlevel, Nat.le_trans hcovered (Nat.le_add_right _ _)⟩

/-- By induction on the lexemes: every opening parenthesis counts for one group. -/
theorem reads {reading next : Reading} {lexemes : List Lexeme} (h : reading.Covered count)
    (hreads : reading.reads lexemes = some next) :
    next.Covered (count + lexemes.count (.mark "(")) := by
  induction lexemes generalizing reading count with
  | nil =>
    cases hreads
    exact h
  | cons lexeme rest ih =>
    obtain ⟨made, hstep, hrest⟩ := Option.bind_eq_some_iff.1 hreads
    have hmade := ih (h.step hstep) hrest
    have hcount : (lexeme :: rest).count (.mark "(") =
        [lexeme].count (.mark "(") + rest.count (.mark "(") := by
      rw [← List.count_append]
      rfl
    rw [hcount, ← Nat.add_assoc]
    exact hmade

end Covered

end Reading

/-! ### Counting -/

/-- No operator is written as a parenthesis. -/
theorem Operator.texts_ne_paren (op : Operator) : op.unaryText ≠ "(" ∧ op.binaryText ≠ "(" := by
  cases op <;> decide

/-- Parentheses are counted where they are written. -/
theorem count_inParens (level strength : Nat) (lexemes : List Lexeme) :
    (inParens (strength < level) lexemes).count (.mark "(") =
      Term.groupsAt level strength (lexemes.count (.mark "(")) := by
  by_cases hgrouped : strength < level <;>
    simp [inParens, Term.groupsAt, hgrouped]

/-- A term is written with the parentheses that are counted. -/
theorem Term.count_lexemes (term : Term) : term.lexemes.count (.mark "(") = term.groups := by
  have hmark : ∀ text, text ≠ "(" → ∀ lexemes : List Lexeme,
      (.mark text :: lexemes).count (.mark "(") = lexemes.count (.mark "(") :=
    fun text htext lexemes => List.count_cons_of_ne (by simpa using htext)
  induction term with
  | name text => rfl
  | before op operand ih =>
    rw [lexemes, hmark _ op.texts_ne_paren.1, count_inParens, ih]
    rfl
  | after op operand ih =>
    rw [lexemes, List.count_append, hmark _ op.texts_ne_paren.1, count_inParens, ih]
    rfl
  | binary op left right ihleft ihright =>
    rw [lexemes, List.count_append, hmark _ op.texts_ne_paren.2, count_inParens, count_inParens,
      ihleft, ihright]
    rfl
  | conditional test consequent alternate ihtest ihconsequent ihalternate =>
    rw [lexemes, List.count_append, hmark _ (by decide), List.count_append, hmark _ (by decide),
      count_inParens, count_inParens, count_inParens, ihtest, ihconsequent, ihalternate]
    rfl

/-- However a term is written, it takes as many parentheses as `Term.lexemes` writes. -/
theorem Term.groups_le_of_parse {lexemes : List Lexeme} {term : Term}
    (h : parse lexemes = some term) : term.groups ≤ lexemes.count (.mark "(") := by
  obtain ⟨reading, hreads, hfinish⟩ := Option.bind_eq_some_iff.1 h
  have hcovered : reading.Covered (0 + lexemes.count (.mark "(")) :=
    Reading.Covered.reads (.waiting (show Nested [] from trivial) (Nat.le_refl 0)) hreads
  obtain ⟨frames, operand⟩ := reading
  cases operand with
  | none => cases hfinish
  | some operand =>
    obtain ⟨bound, -, hlevel, hpaid⟩ := hcovered.operand operand rfl
    rw [Reading.finish] at hfinish
    split at hfinish
    · next whole hcollapse =>
      cases hfinish
      obtain ⟨-, reached, -, hreached, -⟩ :=
        collapse_covered (Option.some.inj hcollapse) hcovered.nested hlevel hpaid
      have hgroups := term.groups_le_cost reached
      simp only [groupsOf] at hreached
      omega
    · cases hfinish

end Concretion
