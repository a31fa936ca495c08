import Concretion.Concrete.Node

/-!
# Invariants of concrete trees

A concrete tree is well laid out when at every node

- a placeholder covers a single offset,
- a kind with a fixed number of children has that many,
- every symbol lies within its node,
- every child lies within its node,
- the children are ordered by their starts, and
- neighbouring children do not overlap, placeholders aside.

`Node.check` goes through a tree, each node before its children, and reports the first `Violation`
it meets.
-/

namespace Concretion

/-- An invariant that does not hold somewhere in a tree. -/
inductive Violation where
  | childOutsideParent (parentKind : String) (parent : Span) (childKind : String) (child : Span)
  | unordered (kind : String) (span previous next : Span)
  | overlap (kind : String) (span previous next : Span)
  | arity (kind : String) (span : Span) (expected actual : Nat)
  | widePlaceholder (kind : String) (span : Span)
  | symbolOutsideNode (kind : String) (span : Span) (symbol : String)
  deriving DecidableEq, Repr, Inhabited

/-- The name of the invariant that does not hold. -/
def Violation.name : Violation → String
  | childOutsideParent .. => "ChildOutsideParent"
  | unordered .. => "Unordered"
  | overlap .. => "Overlap"
  | arity .. => "Arity"
  | widePlaceholder .. => "WidePlaceholder"
  | symbolOutsideNode .. => "SymbolOutsideNode"

/-- What is said of a violation. -/
def Violation.message : Violation → String
  | childOutsideParent parentKind parent childKind child =>
    s!"{childKind} at {child.text} is not contained in its parent {parentKind} at {parent.text}"
  | unordered kind span previous next =>
    s!"{kind} at {span.text} has children out of order: {previous.text} before {next.text}"
  | overlap kind span previous next =>
    s!"{kind} at {span.text} has overlapping children: {previous.text} and {next.text}"
  | arity kind span expected actual =>
    s!"{kind} at {span.text} has {actual} children, expected {expected}"
  | widePlaceholder kind span =>
    s!"Placeholder {kind} at {span.text} covers more than one offset"
  | symbolOutsideNode kind span symbol =>
    s!"Symbol {symbol} of {kind} at {span.text} lies outside of the node"

namespace Node

/-- What must hold of a node apart from its children. -/
def checkSelf (kind : NodeKind) (span : Span) (childCount : Nat) : Except Violation Unit := do
  if kind.isPlaceholder && span.start != span.last then
    throw (.widePlaceholder kind.name span)
  if let some expected := kind.arity? then
    if childCount != expected then throw (.arity kind.name span expected childCount)
  if let some symbol := kind.symbols.find? (!span.contains ·.span) then
    throw (.symbolOutsideNode kind.name span symbol.text)

/-- What must hold of a child next to its parent, the child before it, and the last child before
it that is no placeholder. -/
def checkChild (kind : NodeKind) (span : Span) (previous solid : Option Span)
    (childKind : NodeKind) (child : Span) : Except Violation Unit := do
  if !span.contains child then
    throw (.childOutsideParent kind.name span childKind.name child)
  if let some previous := previous then
    if child.start < previous.start then throw (.unordered kind.name span previous child)
  if !childKind.isPlaceholder then
    if let some solid := solid then
      if !solid.disjoint child then throw (.overlap kind.name span solid child)

mutual

/-- Checks a tree: the node itself, and then child after child with all that is below it. -/
def check : Node → Except Violation Unit
  | ⟨kind, span, children, _⟩ => do
    checkSelf kind span children.length
    checkChildren kind span none none children

/-- Checks the remaining children of a node. -/
def checkChildren (kind : NodeKind) (span : Span) (previous solid : Option Span) :
    List Node → Except Violation Unit
  | [] => pure ()
  | child :: rest => do
    checkChild kind span previous solid child.kind child.span
    child.check
    checkChildren kind span (some child.span)
      (if child.isPlaceholder then solid else some child.span) rest

end

end Node

end Concretion
