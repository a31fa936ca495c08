import Concretion.Abstract.Module
import Concretion.Recovery.Journal
import Concretion.Recovery.Locate
import Concretion.Recovery.Names
import Concretion.Recovery.Shelf
import Concretion.Recovery.Stack

/-!
# Recovery as a computation

- `Settings`: how searches treat comments and literals, whether a missing token is a failure, and
  whether the result is checked.
- `Scope`: what stays the same during a recovery; `Session`: what changes.
- `Recover`: computations that read a scope, change a session, and may fail. What a session has
  become is kept when a computation fails.
- `Recover.settle`, `Recover.settle?`, `Recover.report`: a missing token either becomes a warning,
  and a fallback is used, or ends the recovery. There is no other place where this is decided.
- `Recover.find` and its kin: symbols located in the text.
- `Recover.edit`: changes to the open nodes that may be refused.
- `Recover.within`, `Recover.enter`: a computation with a node open around it.
-/

namespace Concretion

/-- How a concrete tree is recovered. -/
structure Settings where
  mode : ScanMode
  /-- A token that cannot be located ends the recovery. -/
  strict : Bool
  /-- The invariants of the result are checked. -/
  verify : Bool
  deriving DecidableEq, Repr, Inhabited

/-- Settings under which nothing that is wrong goes unnoticed. -/
def Settings.unforgiving : Settings := ⟨.skipTrivia, true, true⟩

/-- What a recovery has to go by. -/
structure Scope where
  source : Source
  info : Option ModuleInfo
  strict : Bool

/-- What a recovery has come to. -/
structure Session where
  stack : Stack
  names : NameTable
  shelf : Shelf
  /-- Set when a function declaration has been recovered. The name of its binding comes next and
  must not become a node again. -/
  skipsName : Bool
  /-- The tokens that could not be located, in the order in which they were missed. -/
  warnings : Array Missing
  journal : Array Entry
  deriving Repr, Inhabited

/-- Computations of a recovery. -/
abbrev Recover (α : Type) := ReaderT Scope (ExceptT Failure (StateM Session)) α

namespace Session

/-- The session in which nothing has been recovered yet. The root covers the whole text. -/
def start (source : Source) : Session :=
  { stack := .ofRoot (.leaf .root (Span.ofBounds 0 source.size))
    names := .empty
    shelf := .empty
    skipsName := false
    warnings := #[]
    journal := #[] }

/-- Notes down an entry. -/
def note (session : Session) (entry : Entry) : Session :=
  { session with journal := session.journal.push entry }

end Session

namespace Recover

/-! ## Access to scope and session -/

/-- Notes down an entry. -/
def note (entry : Entry) : Recover Unit := modify (·.note entry)

/-- The source text. -/
def source : Recover Source := return (← read).source

/-- The stack of open nodes. -/
def getStack : Recover Stack := return (← get).stack

/-- Changes the stack of open nodes. -/
def modifyStack (change : Stack → Stack) : Recover Unit :=
  modify fun session => { session with stack := change session.stack }

/-- Takes a result that may be a failure. -/
def orFail {α : Type} (result : Except Failure α) : Recover α :=
  match result with
  | .ok value => pure value
  | .error failure => throw failure

/-- The outcome of a computation, whether it succeeds or fails. -/
def attempt {α : Type} (action : Recover α) : Recover (Except Failure α) :=
  fun scope => ExceptT.lift (action scope).run

/-- Appends a child to the innermost open node. -/
def attach (node : Node) : Recover Unit := modifyStack (·.attach node)

/-- Makes a change to the open nodes that may be refused. -/
def edit (change : Stack → Except Failure Stack) : Recover Unit := do
  let stack ← orFail (change (← getStack))
  modifyStack fun _ => stack

/-- Reorders the children of the innermost open node. -/
def reorder (permutation : List Nat) : Recover Unit := edit (·.reorder permutation)

/-- Wraps the last child of the innermost open node in a group. -/
def groupLastChild : Recover Unit := edit Stack.groupLastChild

/-- Moves a child of the innermost open node under a wrapper. -/
def wrapChild (index : Nat) (wrapper : Node) : Recover Unit := edit (·.wrapChild index wrapper)

/-- Puts a node in the place of a child of the innermost open node, and returns that child. -/
def replaceChild (index : Nat) (node : Node) : Recover Node := do
  let (old, stack) ← orFail ((← getStack).replaceChild index node)
  modifyStack fun _ => stack
  return old

/-- Fails unless the innermost open node has the expected number of children. -/
def expectChildren (expected : Nat) : Recover Unit := do
  let stack ← getStack
  let actual := stack.current.childCount
  if actual != expected then throw (stack.fault (.childCount expected actual))

/-- The name of the next binding will not become a node. -/
def skipNextName : Recover Unit := modify fun session => { session with skipsName := true }

/-- Whether the name of this binding is to be skipped. The question can be asked once. -/
def takeSkip : Recover Bool := do
  let skips := (← get).skipsName
  modify fun session => { session with skipsName := false }
  return skips

/-- Whether a binding is exported. -/
def exportStatus (name : String) : Recover ExportStatus := return .of (← read).info name

/-! ## Deferred nodes -/

/-- Defers a node. -/
def defer (node : Node) : Recover Ticket := do
  let (ticket, shelf) := (← get).shelf.put node
  modify fun session => { session with shelf := shelf }
  return ticket

/-- Takes back a deferred node. -/
def takeDeferred (ticket : Ticket) : Recover Node := do
  let (node, shelf) ← orFail ((← get).shelf.take ticket)
  modify fun session => { session with shelf := shelf }
  return node

/-! ## Spans -/

/-- The span with the given ends. -/
def spanBetween (start last : Nat) : Recover Span :=
  orFail ((Span.make start last).mapError .reversed)

/-- The least span around two spans. -/
def mergeSpans (a b : Span) : Recover Span := orFail ((a.merge b).mapError .reversed)

/-- The span of a range of the abstract tree, provided it fits the text. -/
def rangeSpan (start finish : Nat) : Recover Span := do
  orFail ((← source).rangeSpan start finish)

/-- Where the gap in front of the next child of the innermost open node begins. -/
def gapStart : Recover Nat := return (← getStack).gapStart

/-- Does a semicolon end the statement that finishes at the offset? -/
def endsWithSemicolon (finish : Nat) : Recover Bool :=
  return (← source).endsWithSemicolon finish

/-- Does a semicolon end the statement of a node, which may reach beyond the given offset? -/
def terminates (node : Node) (finish : Nat) : Recover Bool :=
  endsWithSemicolon (max finish (node.last + 1))

/-! ## Missing tokens -/

/-- Takes note of a missing token, or fails if there must be none. -/
def report (missing : Missing) : Recover Unit := do
  if (← read).strict then throw (.missing missing)
  note (.fallback missing)
  modify fun session => { session with warnings := session.warnings.push missing }

/-- What was located, or a fallback. -/
def settle {α : Type} (found : Except Missing α) (fallback : α) : Recover α :=
  match found with
  | .ok value => pure value
  | .error missing => do
    report missing
    return fallback

/-- What was located, or nothing. -/
def settle? {α : Type} (found : Except Missing α) : Recover (Option α) :=
  match found with
  | .ok value => pure (some value)
  | .error missing => do
    report missing
    return none

/-! ## Symbols -/

/-- Enters a text in the table of names. -/
def intern (text : String) : Recover Unit :=
  modify fun session => { session with names := session.names.enter text }

/-- The symbol of a token that starts at an offset. It covers at least one offset. -/
def symbolAt (token : Token) (start : Nat) : Recover Symbol := do
  let span ← spanBetween start (start + max token.length 1 - 1)
  intern token.text
  return ⟨token.kind, span, token.text⟩

/-- The symbol that has the text of a span as its value. -/
def symbolOver (kind : TokenKind) (span : Span) : Recover Symbol := do
  let text := ((← source).slice span.start (span.last + 1)).getD ""
  intern text
  return ⟨kind, span, text⟩

/-- The first occurrence of a token in the window, or else the start of the window. -/
def find (token : Token) (context : String) (start finish : Nat) : Recover Symbol := do
  let offset ← settle ((← source).locate context token.text start finish) start
  symbolAt token offset

/-- The last occurrence of a token in the window, or else the last offset where it fits. -/
def findLast (token : Token) (context : String) (start finish : Nat) : Recover Symbol := do
  let offset ← settle ((← source).locateLast context token.text start finish)
    (max (finish - token.length) start)
  symbolAt token offset

/-- The first occurrence of a keyword in the window, or else the start of the window. -/
def findWord (word context : String) (start finish : Nat) : Recover Symbol := do
  let offset ← settle ((← source).locateWord context word start finish) start
  symbolAt (.keyword word) offset

/-- The last occurrence of a keyword in the window, if there is one. -/
def findLastWord? (word context : String) (start finish : Nat) : Recover (Option Symbol) := do
  match ← settle? ((← source).locateLastWord context word start finish) with
  | some offset => return some (← symbolAt (.keyword word) offset)
  | none => return none

/-- A token that should stand at an offset. If it does not, the first one behind it counts. -/
def findAtOrAfter (token : Token) (context : String) (offset finish : Nat) : Recover Symbol := do
  if (← source).slice offset (offset + token.length) == some token.text then
    symbolAt token offset
  else find token context offset finish

/-- A token that should finish at an offset. If it does not, the last one before it counts. -/
def findEndingAt (token : Token) (context : String) (start finish : Nat) : Recover Symbol := do
  let offset := finish - token.length
  if token.length ≤ finish && start ≤ offset
      && (← source).slice offset finish == some token.text then
    symbolAt token offset
  else findLast token context start finish

/-! ## Nodes -/

/-- The node of an identifier at its own range. -/
def identifier (start finish : Nat) (name : String) : Recover Node := do
  let span ← rangeSpan start finish
  intern name
  return .leaf (.identifier ⟨.identifier, span, name⟩) span

/-- Opens a node. -/
def openNode (node : Node) : Recover Unit := do
  note (.opened (← getStack).depth node.kind.name node.span)
  modifyStack (·.push node)

/-- Closes the innermost open node. -/
def closeNode : Recover Node := do
  let (node, stack) ← orFail (← getStack).pop
  modifyStack fun _ => stack
  note (.closed stack.depth node.kind.name)
  return node

/-- The node with all that the computation attaches to it. The node is closed even if the
computation fails, and it is made to cover its children: the range of a string literal stops short
of its closing quote, and so may the ranges around it. -/
def within (node : Node) (body : Recover Unit) : Recover Node := do
  openNode node
  let outcome ← attempt body
  let node ← closeNode
  let node ← orFail (node.cover.mapError .reversed)
  orFail outcome
  return node

/-- Attaches the node with all that the computation attaches to it. -/
def enter (node : Node) (body : Recover Unit) : Recover Unit := do
  attach (← within node body)

end Recover

end Concretion
