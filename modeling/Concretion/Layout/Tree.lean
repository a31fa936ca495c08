import Concretion.Concrete.Node
import Concretion.Layout.Ansi
import Concretion.Layout.Engine

/-!
# Printing concrete trees

A concrete tree is printed in parentheses: the kind of the node, its span, a mark for its
semicolon, its symbols, and then its children, each on a line of its own unless the whole node fits
on one.

- `PrintConfig`: width, indentation, and what is printed of a node.
- `Node.doc`: the document of a tree.
- `Engine.print`, `Engine.paint`: its text, plain and in colours, by any layout engine.
- `Node.print`, `Node.printColoured`: its text by the engine and the writer that can be run.
-/

namespace Concretion

open Layout

/-- How trees are printed. -/
structure PrintConfig where
  /-- The width to keep to. -/
  width : Nat
  /-- By how much children are indented. -/
  indent : Int
  /-- Whether the symbols of a node are printed. -/
  symbols : Bool
  /-- Whether spans are printed. -/
  offsets : Bool
  deriving DecidableEq, Repr, Inhabited

namespace PrintConfig

/-- A hundred columns, with all there is to print. -/
def standard : PrintConfig := ⟨100, 2, true, true⟩

/-- A width that no text exceeds, so that lines never break. -/
def singleLine : PrintConfig := { standard with width := 0x7FFFFFFFFFFFFFFF }

end PrintConfig

/-- The document of a symbol. -/
def Symbol.doc (config : PrintConfig) (symbol : Symbol) : Doc :=
  let value := Doc.styled (if symbol.kind.isLiteral then .literal else .keyword) symbol.value
  if config.offsets then value ++ .text "@" ++ .styled .offset symbol.span.text else value

namespace Node

/-- The document of a node apart from its children. -/
def headDoc (config : PrintConfig) (kind : NodeKind) (span : Span) (ownsSemicolon : Bool) : Doc :=
  let name := Doc.styled (if kind.isPlaceholder then .placeholder else .kind) kind.name
  let located :=
    if config.offsets then name ++ .space ++ .styled .offset span.text else name
  let marked := if ownsSemicolon then located ++ .space ++ .styled .keyword ";" else located
  if config.symbols then
    kind.symbols.foldl (fun head symbol => head ++ .space ++ symbol.doc config) marked
  else marked

mutual

/-- The document of a tree. -/
def doc (config : PrintConfig) : Node → Doc
  | ⟨kind, span, children, ownsSemicolon⟩ =>
    .group (.text "(" ++ headDoc config kind span ownsSemicolon ++
      .nest config.indent (childrenDoc config children) ++ .text ")")

/-- The document of the children of a node, each behind a line. -/
def childrenDoc (config : PrintConfig) : List Node → Doc
  | [] => .nil
  | child :: rest => .line ++ doc config child ++ childrenDoc config rest

end

end Node

namespace Layout

/-- The text of a tree. -/
def Engine.print (engine : Engine) (config : PrintConfig) (node : Node) : String :=
  written (engine.calls config.width (node.doc config))

/-- A renderer that has put out a tree in colours. -/
def Engine.paint (engine : Engine) (writer : ColourWriter) (config : PrintConfig) (node : Node) :
    Painter :=
  Painter.fresh.paint writer (engine.calls config.width (node.doc config))

end Layout

namespace Node

/-- The text of a tree. -/
def print (config : PrintConfig) (node : Node) : String := Engine.greedy.print config node

/-- The text of a tree in colours. -/
def printColoured (config : PrintConfig) (node : Node) : String :=
  (Engine.greedy.paint .ansi config node).output

end Node

end Concretion
