import Concretion.Layout.Doc

/-!
# Layout engines

Which groups of a document fit, and with which calls a renderer is told of its text, is up to a
layout engine. What is known of an engine is the documented meaning of documents.

- `Engine`: how wide texts are, which groups fit, and what the renderer is told.
- `Engine.Lays`: the calls for a document, by what each form of a document means. A group is laid
  out on one line if it fits, and otherwise breaks at its own lines; what is pushed for a style and
  what is popped stand around the calls for the document under it.
- `Engine.Lawful`: an engine keeps to that meaning, and a group fits where there is room for it.
- `Engine.greedy`: an engine that can be run.
-/

namespace Concretion

namespace Layout

/-- A layout engine. -/
structure Engine where
  /-- The width of a text, in columns. -/
  measure : String → Nat
  /-- Whether a group fits, for a width to keep to, the column at which the group begins, and the
  documents that come behind it. -/
  fits : (width column : Nat) → (group : Doc) → (behind : List Doc) → Bool
  /-- What a renderer is told of a document, for a width to keep to. Each renderer is told the same,
  whatever it makes of styles. -/
  calls : (width : Nat) → Doc → List Call

/-- Whether a line of a document becomes a space or a line break. -/
inductive Form where
  | flat
  | broken
  deriving DecidableEq, Repr

/-- Nothing but a text is written, at once or bit by bit. -/
def Writes (s : String) (calls : List Call) : Prop :=
  ∃ bits : List String, calls = bits.map .write ∧ String.join bits = s

namespace Engine

variable (engine : Engine)

/-- The width on one line. -/
def flatWidth (doc : Doc) : Nat := doc.flatWidth engine.measure

/-- The width of what must follow on the same line when the given documents follow. -/
def trail (behind : List Doc) : Nat := behind.foldr (Doc.leadWithin engine.measure) 0

/-- The calls for a document, and the column behind it. What comes behind the document is given with
its indentation. -/
inductive Lays (width : Nat) :
    Form → (indent column : Nat) → (behind : List (Nat × Doc)) → Doc → List Call → (last : Nat) →
      Prop where
  | nil {form : Form} {indent column : Nat} {behind : List (Nat × Doc)} :
    Lays width form indent column behind .nil [] column
  | text {form : Form} {indent column : Nat} {behind : List (Nat × Doc)} {s : String}
    {calls : List Call} (hwrites : Writes s calls) :
    Lays width form indent column behind (.text s) calls (column + engine.measure s)
  /-- A line of a document that is kept on one line. -/
  | space {indent column : Nat} {behind : List (Nat × Doc)} {calls : List Call}
    (hwrites : Writes " " calls) :
    Lays width .flat indent column behind .line calls (column + engine.measure " ")
  /-- A line break, with the indentation of the line or of what comes behind it. The two differ only
  where a line is the last that an indented document has. -/
  | newline {indent column next : Nat} {behind : List (Nat × Doc)} {calls : List Call}
    (hnext : next = indent ∨ behind.head?.map Prod.fst = some next)
    (hwrites : Writes (lineBreak next) calls) :
    Lays width .broken indent column behind .line calls next
  | append {form : Form} {indent column middle last : Nat} {behind : List (Nat × Doc)}
    {first second : Doc} {before after : List Call}
    (hfirst : Lays width form indent column ((indent, second) :: behind) first before middle)
    (hsecond : Lays width form indent middle behind second after last) :
    Lays width form indent column behind (.append first second) (before ++ after) last
  /-- Nothing is said of an indentation to the left of the margin. -/
  | nest {form : Form} {indent column next last : Nat} {behind : List (Nat × Doc)} {by_ : Int}
    {body : Doc} {calls : List Call}
    (hnext : 0 ≤ (indent : Int) + by_ → (next : Int) = indent + by_)
    (hbody : Lays width form next column behind body calls last) :
    Lays width form indent column behind (.nest by_ body) calls last
  /-- A group inside of a text that is kept on one line. -/
  | inner {indent column last : Nat} {behind : List (Nat × Doc)} {body : Doc} {calls : List Call}
    (hbody : Lays width .flat indent column behind body calls last) :
    Lays width .flat indent column behind (.group body) calls last
  /-- A group that fits. -/
  | kept {indent column last : Nat} {behind : List (Nat × Doc)} {body : Doc} {calls : List Call}
    (hfits : engine.fits width column body (behind.map Prod.snd) = true)
    (hbody : Lays width .flat indent column behind body calls last) :
    Lays width .broken indent column behind (.group body) calls last
  /-- A group that does not fit. -/
  | broken {indent column last : Nat} {behind : List (Nat × Doc)} {body : Doc} {calls : List Call}
    (hfits : engine.fits width column body (behind.map Prod.snd) = false)
    (hbody : Lays width .broken indent column behind body calls last) :
    Lays width .broken indent column behind (.group body) calls last
  | annotate {form : Form} {indent column last : Nat} {behind : List (Nat × Doc)} {style : Style}
    {body : Doc} {calls : List Call}
    (hbody : Lays width form indent column behind body calls last) :
    Lays width form indent column behind (.annotate style body)
      (.push style :: calls ++ [.pop]) last

/-- What is documented of layout engines. It leaves open how wide texts beyond ASCII are, and
whether a group fits that has room itself, but not together with what must follow on its line. -/
structure Lawful : Prop where
  /-- A printable character of ASCII takes one column. -/
  measure_ascii : ∀ s : String, (∀ c ∈ s.toList, ' ' ≤ c ∧ c ≤ '~') → engine.measure s = s.length
  /-- A group that is too wide for its line does not fit. -/
  room_of_fits : ∀ {width column : Nat} {group : Doc} {behind : List Doc},
    engine.fits width column group behind = true → engine.flatWidth group ≠ 0 →
      column + engine.flatWidth group ≤ width
  /-- A group fits if there is room for it and for all that must follow on its line. -/
  fits_of_room : ∀ {width column : Nat} {group : Doc} {behind : List Doc},
    column + engine.flatWidth group + engine.trail behind ≤ width →
      engine.fits width column group behind = true
  /-- A document is laid out as its form says, beginning at the margin. -/
  lays : ∀ (width : Nat) (doc : Doc),
    ∃ last, engine.Lays width .broken 0 0 [] doc (engine.calls width doc) last

end Engine

/-! ## An engine that can be run -/

namespace Greedy

/-- Does text of the given width fit behind the given column? Nothing always fits. -/
def fits (limit column width : Nat) : Bool := width == 0 || column + width ≤ limit

/-- The calls for a document on one line. -/
def flat : Doc → List Call
  | .nil => []
  | .text s => [.write s]
  | .line => [.write " "]
  | .append first second => flat first ++ flat second
  | .nest _ body | .group body => flat body
  | .annotate style body => .push style :: flat body ++ [.pop]

/-- The calls for a broken document, and the column behind it. `indent` is the indentation in
force, `trail` the width that must follow on the same line, `column` the column in front. -/
def broken (limit : Nat) : Doc → (indent trail column : Nat) → List Call × Nat
  | .nil, _, _, column => ([], column)
  | .text s, _, _, column => ([.write s], column + s.length)
  | .line, indent, _, _ => ([.write (lineBreak indent)], indent)
  | .append first second, indent, trail, column =>
    let (before, middle) := broken limit first indent (second.leadWithin String.length trail) column
    let (after, last) := broken limit second indent trail middle
    (before ++ after, last)
  | .nest by_ body, indent, trail, column =>
    broken limit body ((indent : Int) + by_).toNat trail column
  | .group body, indent, trail, column =>
    let width := body.flatWidth String.length
    if fits limit column (width + trail) then (flat body, column + width)
    else broken limit body indent trail column
  | .annotate style body, indent, trail, column =>
    let (calls, last) := broken limit body indent trail column
    (.push style :: calls ++ [.pop], last)

end Greedy

/-- An engine for which each character takes one column, and which keeps a group on one line just if
there is room for it and for all that must follow on its line. -/
def Engine.greedy : Engine where
  measure := String.length
  fits width column group behind :=
    Greedy.fits width column
      (group.flatWidth String.length + behind.foldr (Doc.leadWithin String.length) 0)
  calls width doc := (Greedy.broken width doc 0 0 0).1

end Layout

end Concretion
