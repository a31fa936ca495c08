import Concretion.Abstract.Tree
import Concretion.Recovery.Session

/-!
# Fragments

The rules that recover a construct do not look into its parts. They see a part as a fragment: where
it stands, what little else of it matters, and a computation `build` that recovers it into the
innermost open node. So each rule can be read, and reasoned about, on its own.

- `Fragment` for expressions, `BlockFragment` for blocks, `FunctionFragment`, `ClassFragment`,
  `MemberFragment`, `LoopFragment`, `StatementFragment` and so on for the rest.
- `Fragment.buildBeside`, `Fragment.buildObject`: an operand, with the parentheses it must have had.
-/

namespace Concretion

/-- An expression. -/
structure Fragment where
  range : Range
  operator? : Option Operator
  build : Recover Unit

/-- A block. -/
structure BlockFragment where
  range : Range
  build : Recover Unit

/-- A function. -/
structure FunctionFragment where
  range : Range
  name : Ident
  kind : FunctionKind
  parameters : List Ident
  body : BlockFragment
  /-- Where the body begins in the text. -/
  bodyStart : Nat
  /-- The default values of parameters, by name. -/
  defaults : List (String × Fragment)
  isAnonymous : Bool
  isMethod : Bool
  isDeclared : Bool

/-- The value of a member. -/
inductive MemberValue where
  /-- A function written as a method. -/
  | method (function : FunctionFragment)
  | expression (value : Fragment)

/-- A member of an object literal or of a class. -/
structure MemberFragment where
  range : Range
  key : Fragment
  value : Option MemberValue
  getter : Option FunctionFragment
  setter : Option FunctionFragment
  isStatic : Bool
  isComputed : Bool

/-- A member of a class as the class sees it. -/
structure ElementFragment where
  range : Range
  build : Recover Unit

/-- A class. Its elements include the constructor if it was written. -/
structure ClassFragment where
  range : Range
  name : Option Ident
  heritage : Option Fragment
  elements : List ElementFragment

/-- A binding. -/
structure BindingFragment where
  range : Range
  name : Ident
  init : Option Fragment
  kind : BindingKind
  isFunctionDeclaration : Bool

/-- A `for` loop. -/
structure LoopFragment where
  range : Range
  kind : LoopKind
  init : Option Fragment
  test : Option Fragment
  update : Option Fragment
  body : BlockFragment

/-- A statement. -/
structure StatementFragment where
  range : Range
  isBinding : Bool
  /-- The loop, if the statement is a `for` loop. -/
  loop? : Option LoopFragment
  build : Recover Unit

/-- A clause of a `switch` statement. -/
structure CaseFragment where
  range : Range
  test : Option Fragment
  statements : List StatementFragment

namespace Fragment

/-- Recovers an expression, if there is one. -/
def buildOptional (fragment : Option Fragment) : Recover Unit :=
  match fragment with
  | some fragment => fragment.build
  | none => pure ()

/-- Recovers an operand that stands beside an operator, in a group if the operand must have been
written in parentheses there. -/
def buildBeside (operand : Fragment) (outer : Operator) (side : Operator.Side) : Recover Unit := do
  operand.build
  if operand.operator?.any (outer.needsParens · side) then Recover.groupLastChild

/-- Recovers the object of a call or of an access. Operators other than construction must have
been written in parentheses there. -/
def buildObject (operand : Fragment) : Recover Unit := do
  operand.build
  if operand.operator?.any (· != .construct) then Recover.groupLastChild

end Fragment

end Concretion
