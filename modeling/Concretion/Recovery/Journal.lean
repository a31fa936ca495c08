import Concretion.Layout.Tree
import Concretion.Recovery.Failure

/-!
# The journal of a recovery

What a recovery does is noted down as it goes along. An entry is data; `Entry.level` and
`Entry.text` say how it reads.
-/

namespace Concretion

/-- How much an entry matters. -/
inductive Level where
  | trace
  | debug
  | warn
  deriving DecidableEq, Repr, Inhabited

/-- The name of a level. -/
def Level.name : Level → String
  | trace => "TRACE"
  | debug => "DEBUG"
  | warn => "WARN"

/-- One thing noted down. -/
inductive Entry where
  /-- A recovery starts, on a text of so many bytes. -/
  | started (uri : String) (bytes : Nat)
  | scanned (ranges bytes : Nat)
  | program (uri : String)
  /-- A node was opened below so many open ones. -/
  | opened (depth : Nat) (kind : String) (span : Span)
  | closed (depth : Nat) (kind : String)
  | bindingSkipped (name : String)
  /-- A string does not start with a quote but with the given byte, if any. -/
  | notQuoted (span : Span) (found : Option UInt8)
  | classMet (start : Nat)
  | functionMet (name : String)
  | bindingMet (name : String)
  | tryMet (start : Nat)
  | noDefaultValue (name : String)
  | declarationsMoved (count start : Nat)
  | moduleItems (count : Nat)
  | fallback (token : Missing)
  | interned (distinct reused : Nat)
  | invalid (tree : Node)
  | unlocated (count : Nat) (uri : String)
  | finished (tree : Node)
  deriving Repr, Inhabited

namespace Entry

/-- How much the entry matters. -/
def level : Entry → Level
  | notQuoted .. | fallback _ => .warn
  | started .. | noDefaultValue _ | moduleItems _ | invalid _ | unlocated .. => .debug
  | _ => .trace

/-- As many spaces as there are open nodes. -/
def margin (depth : Nat) : String := String.ofList (List.replicate depth ' ')

/-- A byte that may be absent. -/
def byteText : Option UInt8 → String
  | some b => s!"Some({b.toNat})"
  | none => "None"

/-- How the entry reads. -/
def text : Entry → String
  | started uri bytes => s!"Lowering {uri} ({bytes} bytes)"
  | scanned ranges bytes => s!"Found {ranges} comment and literal ranges in {bytes} bytes"
  | program uri => s!"Lowering program {uri}"
  | opened depth kind span => s!"{margin depth}> {kind} {span.text}"
  | closed depth kind => s!"{margin depth}< {kind}"
  | bindingSkipped name => s!"Skipping the binding of function declaration {name}"
  | notQuoted span found =>
    s!"String at {span.text} starts with {byteText found} instead of a quote"
  | classMet start => s!"Lowering class at {start}"
  | functionMet name => s!"Lowering function {name}"
  | bindingMet name => s!"Lowering binding {name}"
  | tryMet start => s!"Lowering try statement at {start}"
  | noDefaultValue name => s!"No initializer found for the default parameter {name}"
  | declarationsMoved count start =>
    s!"Moving {count} declarations back into the loop at {start}"
  | moduleItems count => s!"Recovered {count} import and export statements"
  | fallback token => s!"{token.message}, using a fallback position"
  | interned distinct reused =>
    s!"Interned {distinct} distinct strings, {reused} lookups reused an entry"
  | invalid tree => s!"Invalid tree:\n{tree.print .standard}"
  | unlocated count uri => s!"{count} tokens of {uri} could not be located"
  | finished tree => tree.print .standard

end Entry

end Concretion
