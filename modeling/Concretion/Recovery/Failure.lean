import Concretion.Abstract.Operator
import Concretion.Concrete.Invariant

/-!
# Failures

Why a concrete tree cannot be recovered.

- `Missing`: a token that does not stand in the window where it was looked for. This is a warning
  as long as a fallback position will do.
- `ShapeFault`: a tree, abstract or concrete, is not shaped as expected.
- `Failure`: the failures, with `Failure.message` and `Failure.code` giving text and code.
-/

namespace Concretion

/-- A token that the abstract tree leaves out does not stand where it should. -/
structure Missing where
  token : String
  /-- Start of the searched window. -/
  start : Nat
  /-- One past the end of the searched window, as it was asked for. -/
  finish : Nat
  /-- What was being recovered. -/
  context : String
  /-- The part of the window that lies in the text. -/
  label : Option Label
  deriving DecidableEq, Repr, Inhabited

/-- What is said of a missing token. -/
def Missing.message (missing : Missing) : String :=
  s!"Could not locate `{missing.token}` in {missing.start}..{missing.finish}" ++
    s!" while lowering {missing.context}"

/-- A way in which a tree is not shaped as expected. -/
inductive ShapeFault where
  | elementCount (elements nodes : Nat)
  | memberWithoutValue
  | declarationParts (count : Nat)
  | strayDeclarator
  | exportWithoutValue
  | parameterBlockWithoutBody
  | notADeclaration (kind : String)
  | severalCatches (count : Nat)
  | childCount (expected actual : Nat)
  | noChild (index : Nat)
  | noChildToWrap (index : Nat)
  | notAPermutation (count : Nat) (permutation : List Nat)
  | rootClosed
  | stillOpen (count : Nat)
  | neverAttached (count : Nat)
  | nothingDeferred (ticket : Nat)
  | noOperand
  | invalidTree (violation : Violation)
  /-- A fault found by a caller of the library. -/
  | reported (reason : String)
  deriving DecidableEq, Repr, Inhabited

/-- A list of numbers in brackets. -/
def bracketed (numbers : List Nat) : String :=
  "[" ++ ", ".intercalate (numbers.map toString) ++ "]"

/-- The name of the ticket for a deferred node. -/
def ticketName (ticket : Nat) : String := s!"DeferHandle({ticket})"

/-- What is said of a shape fault. -/
def ShapeFault.message : ShapeFault → String
  | elementCount elements nodes => s!"{elements} elements produced {nodes} nodes"
  | memberWithoutValue => "property without a value or accessors"
  | declarationParts count => s!"expected a name and an initializer, found {count} nodes"
  | strayDeclarator => "declarator without a preceding declaration"
  | exportWithoutValue => "default export without a value"
  | parameterBlockWithoutBody => "parameter block without a function body"
  | notADeclaration kind => s!"expected a declaration in the loop header, found {kind}"
  | severalCatches count => s!"a try statement has at most one catch clause, found {count}"
  | childCount expected actual => s!"expected {expected} children, found {actual}"
  | noChild index => s!"no child at index {index}"
  | noChildToWrap index => s!"no child at index {index} to wrap"
  | notAPermutation count permutation =>
    s!"cannot reorder {count} children by {bracketed permutation}"
  | rootClosed => "attempt to close the root node"
  | stillOpen count => s!"{count} nodes are still open"
  | neverAttached count => s!"{count} deferred nodes were never attached"
  | nothingDeferred ticket => s!"no deferred node for {ticketName ticket}"
  | noOperand => "no operand to parenthesize"
  | invalidTree violation => violation.message
  | reported reason => reason

/-- Why a concrete tree cannot be recovered. -/
inductive Failure where
  | unsupportedUnary (operator : Operator) (span : Span)
  | unsupportedBinary (operator : Operator) (span : Span)
  | missing (token : Missing)
  | shape (context : String) (fault : ShapeFault) (span : Option Span)
  | badRange (start finish size : Nat)
  /-- A span would have its ends in the wrong order. -/
  | reversed (ends : Span.Reversed)
  deriving DecidableEq, Repr, Inhabited

namespace Failure

/-- What is said of a failure. -/
def message : Failure → String
  | unsupportedUnary operator _ => s!"Cannot lower {operator.name}: unsupported unary operator"
  | unsupportedBinary operator _ => s!"Cannot lower {operator.name}: unsupported binary operator"
  | missing token => token.message
  | shape context fault _ =>
    s!"Unexpected tree shape while lowering {context}: {fault.message}"
  | badRange start finish size =>
    s!"Invalid source range {start}..{finish} in a source of {size} bytes"
  | reversed ends => ends.message

/-- The code of a failure. Ends in the wrong order have none: no input leads to them. -/
def code : Failure → Option String
  | unsupportedUnary .. | unsupportedBinary .. => some "L-001"
  | missing _ => some "L-002"
  | shape .. => some "L-003"
  | badRange .. => some "L-004"
  | reversed _ => none

/-- The stretch of text that a failure is about. -/
def label : Failure → Option Label
  | unsupportedUnary _ span | unsupportedBinary _ span => some span.label
  | missing token => token.label
  | shape _ _ span => span.map Span.label
  | badRange .. | reversed _ => none

/-- Would recovery have gone on with a fallback position? -/
def isWarning : Failure → Bool
  | missing _ => true
  | _ => false

end Failure

end Concretion
