import Concretion.Recovery.Fragment

/-!
# Operator expressions

The operator of a unary expression stands at one of its ends, that of a binary expression between
its operands. Parentheses around operands are not in the abstract tree; an operand is put in a
group wherever it must have had some.

- `Rule.unary`, `Rule.binary`, `Rule.conditional`: the three shapes of operator expressions.
-/

namespace Concretion

/-- The token an operator is written with. Words are keywords. -/
def Token.ofOperator (spelling : String) : Token :=
  if spelling == "..." then .ellipsis
  else if spelling == "," then ⟨.comma, spelling⟩
  else if Text.isAlphabetic spelling then .keyword spelling
  else ⟨.operator, spelling⟩

@[simp] theorem Token.text_ofOperator (spelling : String) :
    (Token.ofOperator spelling).text = spelling := by
  rw [Token.ofOperator]
  split
  · next hspread => exact (eq_of_beq hspread).symm
  · split
    · rfl
    · split <;> rfl

/-- The kind of node that a unary operator belongs to. -/
def UnaryForm.nodeKind (form : UnaryForm) (operator : Symbol) : NodeKind :=
  match form with
  | before => .preUnary operator
  | after => .postUnary operator
  | construct => .construct operator
  | spread => .spreadElement operator
  | yield => .yield operator

theorem UnaryForm.symbols_nodeKind (form : UnaryForm) (operator : Symbol) :
    (form.nodeKind operator).symbols = [operator] := by
  cases form <;> rfl

/-- The kind of node that a binary operator belongs to. -/
def BinaryForm.nodeKind (form : BinaryForm) (operator : Symbol) : NodeKind :=
  match form with
  | assignment => .assignment operator
  | arithmetic => .binaryArithmetic operator
  | boolean => .binaryBoolean operator
  | comma => .comma operator

theorem BinaryForm.symbols_nodeKind (form : BinaryForm) (operator : Symbol) :
    (form.nodeKind operator).symbols = [operator] := by
  cases form <;> rfl

/-- A node with a single child that is a call takes over the children of the call. -/
def Node.flattenInvoke (node : Node) : Node :=
  match node.children with
  | [child] => if child.kind == .invoke then { node with children := child.children } else node
  | _ => node

namespace Rule

open Recover

/-- The operand of a unary operator, below the node of the operator. A construction has callee and
arguments right below it. -/
def operandBelow (operator : Operator) (form : UnaryForm) (operand : Fragment) :
    Recover Unit := do
  operand.buildBeside operator .right
  if form == .construct then modifyStack (·.modifyCurrent Node.flattenInvoke)

/-- An operator with one operand. -/
def unary (range : Range) (operator : Operator) (operand : Fragment) : Recover Unit := do
  let span ← rangeSpan range.start range.finish
  match operator.unaryForm with
  | none => throw (.unsupportedUnary operator span)
  | some (spelling, form) =>
    let token := Token.ofOperator spelling
    let symbol ←
      if form == .after then findEndingAt token "PostUnary" operand.range.finish range.finish
      else findAtOrAfter token "PreUnary" range.start operand.range.start
    enter (.leaf (form.nodeKind symbol) span) (operandBelow operator form operand)

/-- The symbol of an operator between two operands. A word must not be part of a longer one. -/
def operatorBetween (spelling : String) (start finish : Nat) : Recover Symbol :=
  let token := Token.ofOperator spelling
  if token.kind == .keyword then findWord spelling "Binary" start finish
  else find token "Binary" start finish

/-- An operator with two operands. -/
def binary (range : Range) (operator : Operator) (left right : Fragment) : Recover Unit := do
  let span ← rangeSpan range.start range.finish
  match operator.binaryForm with
  | none => throw (.unsupportedBinary operator span)
  | some (spelling, form) =>
    let symbol ← operatorBetween spelling left.range.finish right.range.start
    enter (.leaf (form.nodeKind symbol) span) do
      left.buildBeside operator .left
      right.buildBeside operator .right

/-- A conditional. Its branches are assignment expressions, so only a comma needs parentheses
there. -/
def conditional (range : Range) (test consequent alternate : Fragment) : Recover Unit := do
  let span ← rangeSpan range.start range.finish
  let question ← find .question "Conditional" test.range.finish consequent.range.start
  let colon ← find .colon "Conditional" consequent.range.finish alternate.range.start
  enter (.leaf (.conditional question colon) span) do
    test.buildBeside .conditional .left
    consequent.buildBeside .assign .right
    alternate.buildBeside .assign .right

end Rule

end Concretion
