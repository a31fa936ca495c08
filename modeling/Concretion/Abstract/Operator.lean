/-!
# Operators

The operators of unary, binary and conditional expressions.

- `Operator`: the operators, with `Operator.all` listing them in their fixed order and
  `Operator.name` giving the name each is referred to by.
- `Operator.precedence`, `Operator.isLeftAssociative`, `Operator.isRightAssociative`: how strongly
  and towards which side an operator binds.
- `Operator.needsParens`: whether an operand must have been written in parentheses.
- `UnaryForm`, `BinaryForm`: the shapes in which supported operators are written, with
  `Operator.unaryForm` and `Operator.binaryForm` giving shape and spelling.
-/

namespace Concretion

/-- The operators of expressions. -/
inductive Operator where
  -- in front of or behind one operand
  | not
  | bitNot
  | plus
  | minus
  | incrementBefore
  | decrementBefore
  | incrementAfter
  | decrementAfter
  | delete
  | typeOf
  | void
  | construct
  | yield
  | await
  | spreadElement
  | spreadArgument
  -- between two operands
  | comma
  | commaLeft
  | or
  | and
  | nullish
  | bitOr
  | bitXor
  | bitAnd
  | equal
  | strictEqual
  | notEqual
  | strictNotEqual
  | less
  | lessEqual
  | greater
  | greaterEqual
  | hasKey
  | instanceOf
  | shiftLeft
  | shiftRight
  | shiftRightUnsigned
  | add
  | subtract
  | multiply
  | divide
  | remainder
  | power
  -- assignments
  | assign
  | assignAdd
  | assignSubtract
  | assignMultiply
  | assignDivide
  | assignRemainder
  | assignPower
  | assignShiftLeft
  | assignShiftRight
  | assignShiftRightUnsigned
  | assignBitAnd
  | assignBitOr
  | assignBitXor
  | assignAnd
  | assignOr
  | assignNullish
  -- between three operands
  | conditional
  deriving DecidableEq, Repr, Inhabited

namespace Operator

/-- All operators, in their fixed order. -/
def all : List Operator :=
  [not, bitNot, plus, minus, incrementBefore, decrementBefore, incrementAfter, decrementAfter,
   delete, typeOf, void, construct, yield, await, spreadElement, spreadArgument,
   comma, commaLeft, or, and, nullish, bitOr, bitXor, bitAnd, equal, strictEqual, notEqual,
   strictNotEqual, less, lessEqual, greater, greaterEqual, hasKey, instanceOf, shiftLeft,
   shiftRight, shiftRightUnsigned, add, subtract, multiply, divide, remainder, power,
   assign, assignAdd, assignSubtract, assignMultiply, assignDivide, assignRemainder, assignPower,
   assignShiftLeft, assignShiftRight, assignShiftRightUnsigned, assignBitAnd, assignBitOr,
   assignBitXor, assignAnd, assignOr, assignNullish, conditional]

/-- The name by which messages refer to an operator. -/
def name : Operator → String
  | not => "Not"
  | bitNot => "BitNot"
  | plus => "Pos"
  | minus => "Neg"
  | incrementBefore => "IncPrefix"
  | decrementBefore => "DecPrefix"
  | incrementAfter => "IncPostfix"
  | decrementAfter => "DecPostfix"
  | delete => "Delete"
  | typeOf => "TypeOf"
  | void => "Void"
  | construct => "New"
  | yield => "Yield"
  | await => "Await"
  | spreadElement => "SpreadArray"
  | spreadArgument => "SpreadArgument"
  | comma => "Comma"
  | commaLeft => "CommaLeft"
  | or => "Or"
  | and => "And"
  | nullish => "Nullish"
  | bitOr => "BitOr"
  | bitXor => "BitXor"
  | bitAnd => "BitAnd"
  | equal => "Eq"
  | strictEqual => "EqStrict"
  | notEqual => "Ne"
  | strictNotEqual => "NeStrict"
  | less => "Lt"
  | lessEqual => "Le"
  | greater => "Gt"
  | greaterEqual => "Ge"
  | hasKey => "In"
  | instanceOf => "InstanceOf"
  | shiftLeft => "Shl"
  | shiftRight => "Sar"
  | shiftRightUnsigned => "Shr"
  | add => "Add"
  | subtract => "Sub"
  | multiply => "Mul"
  | divide => "Div"
  | remainder => "Mod"
  | power => "Exp"
  | assign => "Assign"
  | assignAdd => "AssignAdd"
  | assignSubtract => "AssignSub"
  | assignMultiply => "AssignMul"
  | assignDivide => "AssignDiv"
  | assignRemainder => "AssignMod"
  | assignPower => "AssignExp"
  | assignShiftLeft => "AssignShl"
  | assignShiftRight => "AssignSar"
  | assignShiftRightUnsigned => "AssignShr"
  | assignBitAnd => "AssignBitAnd"
  | assignBitOr => "AssignBitOr"
  | assignBitXor => "AssignBitXor"
  | assignAnd => "AssignAnd"
  | assignOr => "AssignOr"
  | assignNullish => "AssignNullish"
  | conditional => "Ternary"

/-- The operator with the given name. -/
def ofName? (name : String) : Option Operator := all.find? (·.name == name)

/-! ## Binding -/

/-- How strongly an operator binds; tighter is higher. A spread takes no part in precedence and
has strength zero. -/
def precedence : Operator → Nat
  | spreadElement | spreadArgument => 0
  | comma | commaLeft => 1
  | assign | assignAdd | assignSubtract | assignMultiply | assignDivide | assignRemainder
  | assignPower | assignShiftLeft | assignShiftRight | assignShiftRightUnsigned | assignBitAnd
  | assignBitOr | assignBitXor | assignAnd | assignOr | assignNullish | yield => 2
  | conditional => 3
  | or | nullish => 4
  | and => 5
  | bitOr => 6
  | bitXor => 7
  | bitAnd => 8
  | equal | strictEqual | notEqual | strictNotEqual => 9
  | less | lessEqual | greater | greaterEqual | hasKey | instanceOf => 10
  | shiftLeft | shiftRight | shiftRightUnsigned => 11
  | add | subtract => 12
  | multiply | divide | remainder => 13
  | power => 14
  | not | bitNot | plus | minus | incrementBefore | decrementBefore | delete | typeOf | void
  | await => 15
  | incrementAfter | decrementAfter => 16
  | construct => 17

/-- The operators of assignment expressions. -/
def isAssignment (op : Operator) : Bool := op.precedence == 2 && op != yield

/-- Repeated without parentheses, the operator groups to the left. -/
def isLeftAssociative : Operator → Bool
  | comma | commaLeft | or | and | nullish | bitOr | bitXor | bitAnd | equal | strictEqual
  | notEqual | strictNotEqual | less | lessEqual | greater | greaterEqual | hasKey | instanceOf
  | shiftLeft | shiftRight | shiftRightUnsigned | add | subtract | multiply | divide
  | remainder => true
  | _ => false

/-- Repeated without parentheses, the operator groups to the right: powers, conditionals and
assignments do. -/
def isRightAssociative (op : Operator) : Bool :=
  op == power || op == conditional || op.isAssignment

/-- Which side of an operator an operand stands on. -/
inductive Side where
  | left
  | right
  deriving DecidableEq, Repr, Inhabited

/-- Must an operand with operator `inner` have been written in parentheses on the given side of
`outer`? At equal strength it must if `outer` groups towards the other side. -/
def needsParens (outer inner : Operator) (side : Side) : Bool :=
  if inner.precedence == 0 then false
  else if outer.precedence == inner.precedence then
    match side with
    | .left => outer.isRightAssociative
    | .right => outer.isLeftAssociative
  else decide (inner.precedence < outer.precedence)

end Operator

/-! ## Spelling -/

/-- How an operator with one operand is written. -/
inductive UnaryForm where
  /-- In front of the operand. -/
  | before
  /-- Behind the operand. -/
  | after
  /-- The construction of an object. -/
  | construct
  /-- The spreading of elements or arguments. -/
  | spread
  | yield
  deriving DecidableEq, Repr, Inhabited

/-- What kind of node an operator with two operands belongs to. -/
inductive BinaryForm where
  | assignment
  | arithmetic
  | boolean
  | comma
  deriving DecidableEq, Repr, Inhabited

namespace Operator

/-- Spelling and form of the supported operators with one operand. -/
def unaryForm : Operator → Option (String × UnaryForm)
  | not => some ("!", .before)
  | bitNot => some ("~", .before)
  | plus => some ("+", .before)
  | minus => some ("-", .before)
  | incrementBefore => some ("++", .before)
  | decrementBefore => some ("--", .before)
  | delete => some ("delete", .before)
  | typeOf => some ("typeof", .before)
  | void => some ("void", .before)
  | incrementAfter => some ("++", .after)
  | decrementAfter => some ("--", .after)
  | construct => some ("new", .construct)
  | spreadElement | spreadArgument => some ("...", .spread)
  | yield => some ("yield", .yield)
  | _ => none

/-- Spelling and form of the supported operators with two operands. -/
def binaryForm : Operator → Option (String × BinaryForm)
  | assign => some ("=", .assignment)
  | assignAdd => some ("+=", .assignment)
  | assignSubtract => some ("-=", .assignment)
  | assignMultiply => some ("*=", .assignment)
  | assignDivide => some ("/=", .assignment)
  | assignRemainder => some ("%=", .assignment)
  | assignPower => some ("**=", .assignment)
  | assignShiftLeft => some ("<<=", .assignment)
  | assignShiftRight => some (">>=", .assignment)
  | assignShiftRightUnsigned => some (">>>=", .assignment)
  | assignBitAnd => some ("&=", .assignment)
  | assignBitOr => some ("|=", .assignment)
  | assignBitXor => some ("^=", .assignment)
  | add => some ("+", .arithmetic)
  | subtract => some ("-", .arithmetic)
  | multiply => some ("*", .arithmetic)
  | divide => some ("/", .arithmetic)
  | remainder => some ("%", .arithmetic)
  | power => some ("**", .arithmetic)
  | shiftLeft => some ("<<", .arithmetic)
  | shiftRight => some (">>", .arithmetic)
  | shiftRightUnsigned => some (">>>", .arithmetic)
  | bitAnd => some ("&", .arithmetic)
  | bitOr => some ("|", .arithmetic)
  | bitXor => some ("^", .arithmetic)
  | equal => some ("==", .boolean)
  | strictEqual => some ("===", .boolean)
  | notEqual => some ("!=", .boolean)
  | strictNotEqual => some ("!==", .boolean)
  | less => some ("<", .boolean)
  | lessEqual => some ("<=", .boolean)
  | greater => some (">", .boolean)
  | greaterEqual => some (">=", .boolean)
  | hasKey => some ("in", .boolean)
  | instanceOf => some ("instanceof", .boolean)
  | and => some ("&&", .boolean)
  | or => some ("||", .boolean)
  | comma => some (",", .comma)
  | _ => none

theorem spelling_ne_of_unaryForm {operator : Operator} {spelling : String} {form : UnaryForm}
    (h : operator.unaryForm = some (spelling, form)) : spelling ≠ "" := by
  cases operator <;> cases h <;> decide

theorem spelling_ne_of_binaryForm {operator : Operator} {spelling : String} {form : BinaryForm}
    (h : operator.binaryForm = some (spelling, form)) : spelling ≠ "" := by
  cases operator <;> cases h <;> decide

end Operator

end Concretion
