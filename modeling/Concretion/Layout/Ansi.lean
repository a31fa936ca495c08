import Concretion.Layout.Doc

/-!
# Colours

Text under a style is written in the colour of that style. The renderer keeps the styles that are
open: where one begins, its colour is set, and where it ends, the colour of the style around it is
set again, or, if there is none, the writer is reset.

- `Colour`, `Style.colour`: the colours that are in use.
- `ColourWriter`: what a writer puts out when it is told to set a colour, or to reset.
- `Painter`: the renderer, with its open styles and what it has put out.
- `ColourWriter.ansi`: a writer that puts out terminal escape sequences.
-/

namespace Concretion

namespace Layout

/-- The basic colours of a terminal, in the order of their numbers. -/
inductive Colour where
  | black
  | red
  | green
  | yellow
  | blue
  | magenta
  | cyan
  | white
  deriving DecidableEq, Repr, Inhabited

/-- The colour that a style is shown in. -/
def Style.colour : Style → Colour
  | .kind => .blue
  | .keyword => .magenta
  | .literal => .green
  | .offset => .cyan
  | .placeholder => .yellow

/-- A writer for coloured text, by what it puts out. -/
structure ColourWriter where
  /-- What is put out to have the text behind it in a colour. -/
  setColour : Colour → String
  /-- What is put out to have the text behind it in no colour. -/
  reset : String

/-- A renderer that colours text. -/
structure Painter where
  /-- The open styles, innermost first. -/
  styles : List Style
  output : String
  deriving Repr

namespace Painter

variable (writer : ColourWriter)

/-- A renderer at the beginning. -/
def fresh : Painter := ⟨[], ""⟩

def push (painter : Painter) (style : Style) : Painter :=
  ⟨style :: painter.styles, painter.output ++ writer.setColour style.colour⟩

/-- Ends the innermost style. The one around it is in force again, if there is one. -/
def pop (painter : Painter) : Painter :=
  match painter.styles.tail with
  | [] => ⟨[], painter.output ++ writer.reset⟩
  | previous :: outer =>
    ⟨previous :: outer, painter.output ++ writer.setColour previous.colour⟩

/-- What a renderer does when it is told something. -/
def call (painter : Painter) : Call → Painter
  | .write s => ⟨painter.styles, painter.output ++ s⟩
  | .push style => painter.push writer style
  | .pop => painter.pop writer

/-- Renders a text of which it is told call by call. -/
def paint (painter : Painter) (calls : List Call) : Painter := calls.foldl (call writer) painter

end Painter

/-! ## Escape sequences -/

/-- The number of a colour. -/
def Colour.number : Colour → Nat
  | black => 0
  | red => 1
  | green => 2
  | yellow => 3
  | blue => 4
  | magenta => 5
  | cyan => 6
  | white => 7

/-- The escape sequence that resets all attributes. -/
def resetSequence : String := "\x1b[0m"

/-- The writer for terminals. All attributes are reset before a colour is set. -/
def ColourWriter.ansi : ColourWriter where
  setColour colour := resetSequence ++ "\x1b[3" ++ toString colour.number ++ "m"
  reset := resetSequence

end Layout

end Concretion
