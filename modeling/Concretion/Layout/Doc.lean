/-!
# Documents

A document describes a text together with the places where its lines may break, and with the styles
that its parts are under. A renderer that puts out the text is told what to write, and where a style
begins and ends.

- `Doc`: text, lines, groups, indentation and styles.
- `Doc.flatWidth`: the width of a document on one line.
- `Doc.lead`: the width a document takes before its first line break, once it is broken.
- `Call`: what a renderer is told.
- `written`: the text that comes of it.
-/

namespace Concretion

namespace Layout

/-- What a piece of text is, for the sake of colouring it. -/
inductive Style where
  /-- The name of a node kind. -/
  | kind
  /-- A keyword or punctuation. -/
  | keyword
  /-- A name or a literal. -/
  | literal
  /-- A place in the source text. -/
  | offset
  /-- The name of a placeholder. -/
  | placeholder
  deriving DecidableEq, Repr, Inhabited

/-- A text with places where lines may break. -/
inductive Doc where
  | nil
  | text (text : String)
  /-- A line break with indentation, or a space where the text is kept on one line. -/
  | line
  | append (first second : Doc)
  /-- Changes the indentation of the line breaks inside. -/
  | nest (indent : Int) (body : Doc)
  /-- Is kept on one line if it fits, and otherwise breaks at all of its own lines. -/
  | group (body : Doc)
  /-- Puts a document under a style. Styles may be nested, and the innermost counts. -/
  | annotate (style : Style) (body : Doc)
  deriving DecidableEq, Repr, Inhabited

namespace Doc

instance : Append Doc := ⟨append⟩

/-- One space, which never becomes a line break. -/
def space : Doc := text " "

/-- A text under a style. -/
def styled (style : Style) (s : String) : Doc := annotate style (text s)

section

variable (measure : String → Nat)

/-- The width on one line, if a text is as wide as `measure` has it. -/
def flatWidth : Doc → Nat
  | nil => 0
  | text s => measure s
  | line => measure " "
  | append first second => first.flatWidth + second.flatWidth
  | nest _ body | group body | annotate _ body => body.flatWidth

/-- The width of what a broken document has in front of its first line break, and whether it has
a line break at all. -/
def lead : Doc → Nat × Bool
  | nil => (0, false)
  | text s => (measure s, false)
  | line => (0, true)
  | append first second =>
    match first.lead with
    | (width, true) => (width, true)
    | (width, false) =>
      let (more, breaks) := second.lead
      (width + more, breaks)
  | nest _ body | group body | annotate _ body => body.lead

/-- The width that must follow on the same line when `doc` follows, and `trail` columns follow the
document if it has no line break. -/
def leadWithin (doc : Doc) (trail : Nat) : Nat :=
  match doc.lead measure with
  | (width, true) => width
  | (width, false) => width + trail

end

end Doc

/-- What a renderer is told. -/
inductive Call where
  | write (text : String)
  /-- What follows is under a style. -/
  | push (style : Style)
  /-- The style that was pushed last ends. -/
  | pop
  deriving DecidableEq, Repr, Inhabited

/-- The text that is written by a call. -/
def Call.text : Call → String
  | write s => s
  | push _ | pop => ""

/-- The text of several calls, for which a plain renderer passes over all styles. -/
def written (calls : List Call) : String := String.join (calls.map Call.text)

/-- What stands at the beginning of a new line. -/
def lineBreak (indent : Nat) : String := "\n" ++ String.ofList (List.replicate indent ' ')

end Layout

end Concretion
