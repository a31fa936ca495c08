import Concretion.Proofs.Printed

/-!
# Colours of printed trees

A terminal that reads coloured text shows each character in the colour that is set when it comes to
it, and does not show escape sequences. What it shows of a printed tree is the text of the tree
without colours. The names of the nodes, their spans, semicolons and symbols are coloured and
nothing else is.

- `Terminal`: a terminal, which reads a text character by character.
- `uncoloured`: what it shows.
- `ColourWriter.Lawful`: a terminal takes what a writer puts out for a colour for that colour, and
  shows nothing of it.
- `InStep`: a terminal has read what a renderer has put out, and has set the colour of the innermost
  open style. Each call to the renderer keeps the two in step (`InStep.call`), and so does a whole
  rendering (`InStep.paint`).
- `Engine.paint_doc`: what is shown of any document, however its styles are nested.
- `Part`: the parts of the text of a tree, each with its colour.
- `Node.colours_agree`: what is shown of a tree, part by part.
-/

namespace Concretion

namespace Layout

/-! ## Terminals -/

/-- How a terminal takes the next character. -/
inductive Mode where
  | text
  /-- Behind an escape character. -/
  | escape
  /-- In an escape sequence, of which the given parameter has been read. -/
  | sequence (parameter : List Char)
  deriving DecidableEq, Repr

/-- A character with the colour it is shown in, if any. -/
abbrev Glyph := Char × Option Colour

/-- A terminal: the colour that is set, and what is shown. -/
structure Terminal where
  mode : Mode
  colour : Option Colour
  shown : List Glyph
  deriving DecidableEq, Repr

/-- The colour with the given digit. -/
def Colour.ofDigit? : Char → Option Colour
  | '0' => some .black
  | '1' => some .red
  | '2' => some .green
  | '3' => some .yellow
  | '4' => some .blue
  | '5' => some .magenta
  | '6' => some .cyan
  | '7' => some .white
  | _ => none

namespace Terminal

/-- The colour behind a sequence that sets attributes. -/
def select (colour : Option Colour) : List Char → Option Colour
  | ['0'] => none
  | ['3', digit] => (Colour.ofDigit? digit).or colour
  | _ => colour

/-- How a terminal reads a character. -/
def read (terminal : Terminal) (c : Char) : Terminal :=
  match terminal.mode with
  | .text =>
    if c = '\x1b' then { terminal with mode := .escape }
    else { terminal with shown := terminal.shown ++ [(c, terminal.colour)] }
  | .escape => { terminal with mode := if c = '[' then .sequence [] else .text }
  | .sequence parameter =>
    if c = 'm' then
      { terminal with mode := .text, colour := select terminal.colour parameter }
    else { terminal with mode := .sequence (parameter ++ [c]) }

/-- A terminal that has read a text. -/
def reading (s : String) : Terminal := s.toList.foldl read ⟨.text, none, []⟩

theorem reading_append (s s' : String) : reading (s ++ s') = s'.toList.foldl read (reading s) := by
  rw [reading, String.toList_append, List.foldl_append, reading]

/-- Text without escapes is shown in the colour that is set. -/
theorem foldl_read_plain {colour : Option Colour} {shown : List Glyph} {chars : List Char}
    (h : '\x1b' ∉ chars) : chars.foldl read ⟨.text, colour, shown⟩ =
      ⟨.text, colour, shown ++ chars.map (·, colour)⟩ := by
  induction chars generalizing shown with
  | nil => rw [List.map_nil, List.append_nil, List.foldl_nil]
  | cons c rest ih =>
    obtain ⟨hc, hrest⟩ := not_or.1 (mt List.mem_cons.2 h)
    rw [List.foldl_cons, read]
    simp only [if_neg (Ne.symm hc)]
    rw [ih hrest, List.append_assoc, List.map_cons, List.singleton_append]

end Terminal

/-- A coloured text without its escape sequences. -/
def uncoloured (s : String) : String := String.ofList ((Terminal.reading s).shown.map Prod.fst)

/-! ## Writers -/

/-- What is documented of writers: text that is put out behind a colour that has been set is in that
colour, until another one is set or the writer is reset. A terminal shows nothing of what is put out
for that. -/
structure ColourWriter.Lawful (writer : ColourWriter) : Prop where
  read_setColour : ∀ (colour : Colour) (terminal : Terminal), terminal.mode = .text →
    (writer.setColour colour).toList.foldl Terminal.read terminal =
      { terminal with colour := some colour }
  read_reset : ∀ terminal : Terminal, terminal.mode = .text →
    writer.reset.toList.foldl Terminal.read terminal = { terminal with colour := none }

theorem ColourWriter.ansi_lawful : ColourWriter.ansi.Lawful where
  read_setColour colour terminal hmode := by
    obtain ⟨mode, set, shown⟩ := terminal
    obtain rfl : mode = .text := hmode
    -- with the characters spelled out the terminal can be run on them
    have hchars : (ColourWriter.ansi.setColour colour).toList =
        "\x1b[0m\x1b[3".toList ++ [Nat.digitChar colour.number, 'm'] := by
      cases colour <;> decide +kernel
    rw [hchars, List.foldl_append]
    cases colour <;> rfl
  read_reset terminal hmode := by
    obtain ⟨mode, set, shown⟩ := terminal
    obtain rfl : mode = .text := hmode
    rfl

/-! ## A renderer and a terminal in step -/

/-- A terminal that has read what a renderer has put out shows the given characters, and has set the
colour of the innermost open style, if there is one. -/
def InStep (painter : Painter) (shown : List Glyph) : Prop :=
  Terminal.reading painter.output = ⟨.text, painter.styles.head?.map Style.colour, shown⟩

/-- A character under a style, as it is shown. -/
def glyph : Char × Option Style → Glyph
  | (c, style) => (c, style.map Style.colour)

section

variable {writer : ColourWriter} {painter : Painter} {shown : List Glyph}

theorem inStep_fresh : InStep .fresh [] := rfl

/-- Behind the outermost style the writer is reset. -/
theorem Painter.pop_of_nil (h : painter.styles.tail = []) :
    painter.pop writer = ⟨[], painter.output ++ writer.reset⟩ := by
  rw [Painter.pop, h]

/-- Behind a style inside of another one, the colour of the outer style is set. -/
theorem Painter.pop_of_cons {previous : Style} {outer : List Style}
    (h : painter.styles.tail = previous :: outer) :
    painter.pop writer =
      ⟨previous :: outer, painter.output ++ writer.setColour previous.colour⟩ := by
  rw [Painter.pop, h]

/-- Each call keeps terminal and renderer in step. What is written is shown in the colour of the
innermost open style, which behind a style that ends is again the one around it. -/
theorem InStep.call (hwriter : writer.Lawful) (h : InStep painter shown) (call : Call)
    (hplain : '\x1b' ∉ call.text.toList) :
    (painter.call writer call).styles = call.restyle painter.styles ∧
      InStep (painter.call writer call)
        (shown ++ (call.text.toList.map (·, painter.styles.head?)).map glyph) := by
  obtain ⟨styles, output⟩ := painter
  have hread : Terminal.reading output = ⟨.text, styles.head?.map Style.colour, shown⟩ := h
  cases call with
  | write s =>
    refine ⟨rfl, ?_⟩
    rw [InStep, Painter.call, Terminal.reading_append, hread, List.map_map]
    exact Terminal.foldl_read_plain hplain
  | push style =>
    refine ⟨rfl, ?_⟩
    rw [InStep, Painter.call, Painter.push, Terminal.reading_append, hread,
      hwriter.read_setColour _ _ rfl, Call.text, String.toList_empty, List.map_nil, List.map_nil,
      List.append_nil]
    rfl
  | pop =>
    rw [Painter.call, Call.restyle, Call.text, String.toList_empty, List.map_nil, List.map_nil,
      List.append_nil]
    cases houter : styles.tail with
    | nil =>
      rw [Painter.pop_of_nil houter]
      refine ⟨rfl, ?_⟩
      rw [InStep, Terminal.reading_append, hread]
      exact hwriter.read_reset _ rfl
    | cons previous outer =>
      rw [Painter.pop_of_cons houter]
      refine ⟨rfl, ?_⟩
      rw [InStep, Terminal.reading_append, hread]
      exact hwriter.read_setColour _ _ rfl

/-- A rendering keeps terminal and renderer in step, whatever styles it opens and closes. -/
theorem InStep.paint (hwriter : writer.Lawful) (h : InStep painter shown) {calls : List Call}
    (hplain : '\x1b' ∉ (written calls).toList) :
    (painter.paint writer calls).styles = opened painter.styles calls ∧
      InStep (painter.paint writer calls) (shown ++ (marks painter.styles calls).map glyph) := by
  induction calls generalizing painter shown with
  | nil => exact ⟨rfl, by rwa [marks, List.map_nil, List.append_nil]⟩
  | cons call rest ih =>
    rw [written, List.map_cons, String.join_cons, String.toList_append, List.mem_append,
      not_or] at hplain
    obtain ⟨hstyles, hcall⟩ := h.call hwriter call hplain.1
    obtain ⟨hlast, hall⟩ := ih hcall hplain.2
    rw [hstyles] at hlast hall
    rw [marks, List.map_append, ← List.append_assoc]
    exact ⟨hlast, hall⟩

end

/-- What is shown of a piece. -/
def Piece.glyphs (piece : Piece) : List Glyph :=
  piece.plain.toList.map (·, piece.style.map Style.colour)

/-- Line breaks have no escape characters. -/
theorem Piece.plain_of_joined {piece : Piece} (h : '\x1b' ∉ piece.joined.plain.toList) :
    '\x1b' ∉ piece.plain.toList := by
  match piece with
  | .text _ _ => exact h
  | .gap _ none => exact h
  | .gap _ (some indent) =>
    have hspaces : '\x1b' ∉ List.replicate indent ' ' :=
      fun hmem => absurd (List.eq_of_mem_replicate hmem) (by decide)
    rw [Piece.plain, lineBreak, String.toList_append, List.mem_append, not_or]
    exact ⟨by decide, by rwa [String.toList_ofList]⟩

/-- However the styles of a document are nested, a terminal shows each piece of it in the colour of
the innermost style around it. All styles are closed at the end, and no colour is set. -/
theorem Engine.paint_doc {engine : Engine} (hengine : engine.Lawful) {writer : ColourWriter}
    (hwriter : writer.Lawful) (width : Nat) {doc : Doc}
    (hplain : ∀ piece ∈ doc.flat none, '\x1b' ∉ piece.plain.toList) :
    let calls := engine.calls width doc
    let painter := Painter.fresh.paint writer calls
    ∃ pieces, pieces.map Piece.joined = doc.flat none ∧ written calls = plain pieces ∧
      painter.styles = [] ∧
      Terminal.reading painter.output = ⟨.text, none, pieces.flatMap Piece.glyphs⟩ := by
  intro calls painter
  obtain ⟨last, hlays⟩ := hengine.lays width doc
  obtain ⟨pieces, hdisplays, hjoined, -⟩ := hlays.displays []
  have hwritten : '\x1b' ∉ (written calls).toList := by
    rw [hdisplays.written, plain, String.toList_join, List.mem_flatMap]
    rintro ⟨s, hs, hmem⟩
    obtain ⟨piece, hpiece, rfl⟩ := List.mem_map.1 hs
    exact Piece.plain_of_joined
      (hplain _ (hjoined ▸ List.mem_map_of_mem hpiece : piece.joined ∈ doc.flat none)) hmem
  obtain ⟨hstyles, hshown⟩ := inStep_fresh.paint hwriter hwritten
  have hopened : painter.styles = [] := hstyles.trans hdisplays.opened
  have hglyphs : (marks [] calls).map glyph = pieces.flatMap Piece.glyphs := by
    rw [hdisplays.marks, List.map_flatMap]
    exact List.flatMap_congr fun piece _ => List.map_map
  have hread : Terminal.reading painter.output =
      ⟨.text, painter.styles.head?.map Style.colour, [] ++ (marks [] calls).map glyph⟩ := hshown
  refine ⟨pieces, hjoined, hdisplays.written, hopened, ?_⟩
  rw [hread, hopened, hglyphs]
  rfl

/-- Behind a style inside of another one, the outer style is in force again. -/
example :
    let doc := Doc.annotate .kind (.text "a" ++ .styled .offset "b" ++ .text "c") ++ .text "d"
    (Terminal.reading (Painter.fresh.paint .ansi (Engine.greedy.calls 80 doc)).output).shown =
      [('a', some .blue), ('b', some .cyan), ('c', some .blue), ('d', none)] := by
  decide +kernel

/-! ## The parts of the text of a tree -/

/-- A part of the text of a tree. -/
inductive Part where
  | opening
  | closing
  /-- The space between two parts of a head. -/
  | space
  /-- What stands in front of a child. -/
  | gap
  /-- The sign between a symbol and its span. -/
  | sign
  | name (kind : NodeKind)
  | span (place : Span)
  | semicolon
  | value (symbol : Symbol)

theorem plain_name (kind : NodeKind) : '\x1b' ∉ kind.name.toList := by
  cases kind <;> simp only [NodeKind.name] <;> decide

theorem plain_spanText (place : Span) : '\x1b' ∉ place.text.toList := by
  have hdigits : ∀ n : Nat, '\x1b' ∉ (toString n).toList := by
    intro n hmem
    rw [Nat.toString_eq_ofList_toDigits, String.toList_ofList] at hmem
    exact absurd (Nat.isDigit_of_mem_toDigits (by decide) (by decide) hmem) (by decide)
  have htext : place.text.toList =
      (toString place.start).toList ++ ['.', '.'] ++ (toString place.last).toList := by
    show (toString place.start ++ ".." ++ toString place.last).toList = _
    rw [String.toList_append, String.toList_append]
    rfl
  rw [htext, List.mem_append, List.mem_append, not_or, not_or]
  exact ⟨⟨hdigits _, by decide⟩, hdigits _⟩

namespace Part

/-- The colour of a part. Names, spans, semicolons and values have one. -/
def colour : Part → Option Colour
  | name kind => some (if kind.isPlaceholder then .yellow else .blue)
  | span _ => some .cyan
  | semicolon => some .magenta
  | value symbol => some (if symbol.kind.isLiteral then .green else .magenta)
  | opening | closing | space | gap | sign => none

/-- The text of a part. That of a gap is the one that it has where no line is broken. -/
def text : Part → String
  | opening => "("
  | closing => ")"
  | space | gap => " "
  | sign => "@"
  | name kind => kind.name
  | span place => place.text
  | semicolon => ";"
  | value symbol => symbol.value

/-- How a part may be written: a gap as a space or as a new line with its indentation, and all else
as it is. -/
def Reads : Part → String → Prop
  | gap, s => s = " " ∨ ∃ indent, s = "\n" ++ String.ofList (List.replicate indent ' ')
  | part, s => s = part.text

/-- The style of a part. -/
def style : Part → Option Style
  | name kind => some (if kind.isPlaceholder then .placeholder else .kind)
  | span _ => some .offset
  | semicolon => some .keyword
  | value symbol => some (if symbol.kind.isLiteral then .literal else .keyword)
  | opening | closing | space | gap | sign => none

/-- What a part is on one line. -/
def piece : Part → Piece
  | gap => .gap none none
  | part => .text part.style part.text

theorem colour_style (part : Part) : part.style.map Style.colour = part.colour := by
  cases part with
  | name kind =>
    rw [style, colour, Option.map_some]
    split <;> rfl
  | value symbol =>
    rw [style, colour, Option.map_some]
    split <;> rfl
  | opening | closing | space | gap | sign | span | semicolon => rfl

theorem plain_piece (part : Part) : part.piece.plain = part.text := by
  cases part <;> rfl

/-- However the lines of a text are broken, a part is written as it may be, and in its style. -/
theorem reads_of_joined {part : Part} {piece : Piece} (h : piece.joined = part.piece) :
    part.Reads piece.plain ∧ piece.style = part.style := by
  match piece with
  | .text style s =>
    cases part with
    | gap => cases h
    | opening | closing | space | sign | name | span | semicolon | value =>
      obtain ⟨rfl, rfl⟩ := Piece.text.inj h
      exact ⟨rfl, rfl⟩
  | .gap style indent =>
    cases part with
    | gap =>
      obtain ⟨rfl, -⟩ := Piece.gap.inj h
      cases indent with
      | none => exact ⟨.inl rfl, rfl⟩
      | some indent => exact ⟨.inr ⟨indent, rfl⟩, rfl⟩
    | opening | closing | space | sign | name | span | semicolon | value => cases h

theorem plain_text {part : Part}
    (h : ∀ symbol, part = .value symbol → '\x1b' ∉ symbol.value.toList) :
    '\x1b' ∉ part.text.toList := by
  cases part with
  | value symbol => exact h symbol rfl
  | name kind => exact plain_name kind
  | span place => exact plain_spanText place
  | opening | closing | space | gap | sign | semicolon => decide

/-- Pieces that are parts of a text, with its lines broken somehow, are written and shown part by
part. -/
theorem exists_written {parts : List Part} {pieces : List Piece}
    (h : pieces.map Piece.joined = parts.map piece) :
    ∃ written : List (Part × String), written.map Prod.fst = parts ∧
      (∀ part s, (part, s) ∈ written → part.Reads s) ∧
      written.map Prod.snd = pieces.map Piece.plain ∧
      pieces.flatMap Piece.glyphs =
        written.flatMap fun (part, s) => s.toList.map (·, part.colour) := by
  -- One part is read from each piece. The style goes with the part, so the glyphs of the piece have
  -- its colour.
  induction parts generalizing pieces with
  | nil =>
    obtain rfl := List.map_eq_nil_iff.1 h
    exact ⟨[], rfl, by simp, rfl, rfl⟩
  | cons part parts ih =>
    obtain ⟨piece, rest, rfl, hpiece, hrest⟩ := List.map_eq_cons_iff.1 h
    obtain ⟨written, hparts, hreads, hwritten, hshown⟩ := ih hrest
    obtain ⟨hread, hstyle⟩ := reads_of_joined hpiece
    refine ⟨(part, piece.plain) :: written, ?_, ?_, ?_, ?_⟩
    · rw [List.map_cons, hparts]
    · intro other s hmem
      rcases List.mem_cons.1 hmem with heq | hmem
      · cases heq
        exact hread
      · exact hreads other s hmem
    · rw [List.map_cons, List.map_cons, hwritten]
    · rw [List.flatMap_cons, List.flatMap_cons, hshown, Piece.glyphs, hstyle, colour_style]

end Part

end Layout

open Layout

/-- The parts of a symbol. -/
def Symbol.parts (config : PrintConfig) (symbol : Symbol) : List Part :=
  .value symbol :: if config.offsets then [.sign, .span symbol.span] else []

namespace Node

/-- The parts of a node apart from its children. -/
def headParts (config : PrintConfig) (kind : NodeKind) (span : Span) (ownsSemicolon : Bool) :
    List Part :=
  .name kind ::
    ((if config.offsets then [.space, .span span] else []) ++
      (if ownsSemicolon then [.space, .semicolon] else []) ++
      if config.symbols then kind.symbols.flatMap fun symbol => .space :: symbol.parts config
      else [])

mutual

/-- The parts of the text of a tree. -/
def parts (config : PrintConfig) : Node → List Part
  | ⟨kind, span, children, ownsSemicolon⟩ =>
    .opening :: headParts config kind span ownsSemicolon ++ childrenParts config children ++
      [.closing]

/-- The parts of the text of the children of a node. -/
def childrenParts (config : PrintConfig) : List Node → List Part
  | [] => []
  | child :: rest => .gap :: parts config child ++ childrenParts config rest

end

section

variable (config : PrintConfig)

theorem flat_symbolDoc (symbol : Symbol) :
    (symbol.doc config).flat none = (symbol.parts config).map Part.piece := by
  rw [Symbol.doc, Symbol.parts]
  split <;> rfl

theorem flat_symbolsDoc (symbols : List Symbol) (head : Doc) :
    (symbols.foldl (fun head symbol => head ++ .space ++ symbol.doc config) head).flat none =
      head.flat none ++
        (symbols.flatMap fun symbol => .space :: symbol.parts config).map Part.piece := by
  induction symbols generalizing head with
  | nil => exact (List.append_nil _).symm
  | cons symbol rest ih =>
    rw [List.foldl_cons, ih, Doc.flat_append, Doc.flat_append, flat_symbolDoc, List.flatMap_cons,
      List.map_append, List.map_cons, List.append_assoc, List.append_assoc]
    rfl

theorem flat_headDoc (kind : NodeKind) (span : Span) (ownsSemicolon : Bool) :
    (headDoc config kind span ownsSemicolon).flat none =
      (headParts config kind span ownsSemicolon).map Part.piece := by
  let name := Doc.styled (if kind.isPlaceholder then .placeholder else .kind) kind.name
  have hlocated : (if config.offsets then name ++ .space ++ .styled .offset span.text
      else name).flat none =
        (Part.name kind :: if config.offsets then [.space, .span span] else []).map Part.piece := by
    split <;> rfl
  have hmarked : ∀ {located : Doc} {parts : List Part},
      located.flat none = parts.map Part.piece →
        (if ownsSemicolon then located ++ .space ++ .styled .keyword ";" else located).flat none =
          (parts ++ if ownsSemicolon then [Part.space, .semicolon] else []).map Part.piece := by
    intro located parts hlocated
    split
    · rw [Doc.flat_append, Doc.flat_append, hlocated, List.map_append, List.append_assoc]
      rfl
    · rw [List.append_nil, hlocated]
  have hhead : ∀ {marked : Doc} {parts : List Part}, marked.flat none = parts.map Part.piece →
      (if config.symbols then
          kind.symbols.foldl (fun head symbol => head ++ .space ++ symbol.doc config) marked
        else marked).flat none =
          (parts ++ if config.symbols then
            kind.symbols.flatMap fun symbol => .space :: symbol.parts config
          else []).map Part.piece := by
    intro marked parts hmarked
    split
    · rw [flat_symbolsDoc, hmarked, List.map_append]
    · rw [List.append_nil, hmarked]
  exact hhead (hmarked hlocated)

mutual

theorem flat_doc_parts : (node : Node) →
    (node.doc config).flat none = (node.parts config).map Part.piece
  | ⟨kind, span, children, ownsSemicolon⟩ => by
    rw [parts, List.map_append, List.map_append, List.map_cons, ← flat_headDoc,
      ← flat_childrenDoc_parts children]
    rfl

theorem flat_childrenDoc_parts : (nodes : List Node) →
    (childrenDoc config nodes).flat none = (childrenParts config nodes).map Part.piece
  | [] => rfl
  | child :: rest => by
    rw [childrenParts, List.map_append, List.map_cons, ← flat_doc_parts child,
      ← flat_childrenDoc_parts rest]
    rfl

end

variable {config}

theorem mem_symbols_of_value_mem_headParts {kind : NodeKind} {span : Span} {ownsSemicolon : Bool}
    {symbol : Symbol} (h : .value symbol ∈ headParts config kind span ownsSemicolon) :
    symbol ∈ kind.symbols := by
  simp only [headParts, List.mem_cons, List.mem_append, reduceCtorEq, false_or] at h
  obtain (h | h) | h := h
  · split at h <;> simp at h
  · split at h <;> simp at h
  · split at h
    · obtain ⟨other, hmem, hvalue⟩ := List.mem_flatMap.1 h
      obtain rfl : symbol = other := by
        simp only [Symbol.parts, List.mem_cons, reduceCtorEq, false_or, Part.value.injEq] at hvalue
        rcases hvalue with heq | hplace
        · exact heq
        · split at hplace <;> simp at hplace
      exact hmem
    · cases h

mutual

/-- The values in the text of a tree are those of its symbols. -/
theorem exists_of_value_mem_parts {symbol : Symbol} : (node : Node) →
    .value symbol ∈ node.parts config → ∃ below ∈ node.preorder, symbol ∈ below.symbols
  | ⟨kind, span, children, ownsSemicolon⟩, h => by
    rw [preorder]
    simp only [parts, List.cons_append, List.mem_cons, List.mem_append, reduceCtorEq, false_or,
      List.not_mem_nil, or_false] at h
    rcases h with hhead | hchildren
    · exact ⟨_, List.mem_cons_self, mem_symbols_of_value_mem_headParts hhead⟩
    · obtain ⟨below, hbelow, hsymbol⟩ := exists_of_value_mem_childrenParts children hchildren
      exact ⟨below, List.mem_cons_of_mem _ hbelow, hsymbol⟩

theorem exists_of_value_mem_childrenParts {symbol : Symbol} : (nodes : List Node) →
    .value symbol ∈ childrenParts config nodes →
      ∃ below ∈ preorderList nodes, symbol ∈ below.symbols
  | [], h => by cases h
  | child :: rest, h => by
    simp only [childrenParts, List.cons_append, List.mem_cons, List.mem_append, reduceCtorEq,
      false_or] at h
    rw [preorderList]
    rcases h with hchild | hrest
    · obtain ⟨below, hbelow, hsymbol⟩ := exists_of_value_mem_parts child hchild
      exact ⟨below, List.mem_append_left _ hbelow, hsymbol⟩
    · obtain ⟨below, hbelow, hsymbol⟩ := exists_of_value_mem_childrenParts rest hrest
      exact ⟨below, List.mem_append_right _ hbelow, hsymbol⟩

end

end

/-! ## Coloured and plain text -/

/-- Whatever the width, the indentation and the choice of what is printed, the coloured text of a
tree whose symbols have no escape characters shows just what its plain text has. All styles are
closed at the end and no colour is set. What is shown are the parts of the tree in order, the names,
spans, semicolons and values each in its own colour and all else in none. All that is known of the
layout engine is the meaning of documents, and of the writer what terminals make of its output. -/
theorem colours_agree (engine : Engine) (hengine : engine.Lawful) (writer : ColourWriter)
    (hwriter : writer.Lawful) (config : PrintConfig) (node : Node)
    (hplain : ∀ below ∈ node.preorder, ∀ symbol ∈ below.symbols,
      '\x1b' ∉ symbol.value.toList) :
    let painter := engine.paint writer config node
    let terminal := Terminal.reading painter.output
    painter.styles = [] ∧ terminal.mode = .text ∧ terminal.colour = none ∧
      uncoloured painter.output = engine.print config node ∧
      ∃ written : List (Part × String), written.map Prod.fst = node.parts config ∧
        (∀ part s, (part, s) ∈ written → part.Reads s) ∧
        engine.print config node = String.join (written.map Prod.snd) ∧
        terminal.shown = written.flatMap fun (part, s) => s.toList.map (·, part.colour) := by
  intro painter terminal
  have hflat : ∀ piece ∈ (node.doc config).flat none, '\x1b' ∉ piece.plain.toList := by
    intro piece hpiece
    rw [flat_doc_parts] at hpiece
    obtain ⟨part, hpart, rfl⟩ := List.mem_map.1 hpiece
    rw [Part.plain_piece]
    refine Part.plain_text fun symbol hsymbol => ?_
    obtain ⟨below, hbelow, hmem⟩ := exists_of_value_mem_parts node (hsymbol ▸ hpart)
    exact hplain below hbelow symbol hmem
  obtain ⟨pieces, hjoined, hprint, hstyles, hread⟩ :=
    Engine.paint_doc hengine hwriter config.width hflat
  -- up to its line breaks, the text is that of the parts, each of them one piece
  rw [flat_doc_parts] at hjoined
  obtain ⟨written, hfst, hreads, hsnd, hglyphs⟩ := Part.exists_written hjoined
  have hread : terminal = ⟨.text, none, pieces.flatMap Piece.glyphs⟩ := hread
  have hprint : engine.print config node = plain pieces := hprint
  rw [hread]
  refine ⟨hstyles, rfl, rfl, ?_, written, hfst, hreads, ?_, hglyphs⟩
  · -- without their colours the characters that are shown are those of the plain text
    have hshown : (Terminal.reading painter.output).shown = pieces.flatMap Piece.glyphs :=
      congrArg Terminal.shown hread
    rw [uncoloured, hshown, hprint, ← String.toList_inj, String.toList_ofList, toList_plain,
      List.map_flatMap, List.map_flatMap]
    refine List.flatMap_congr fun piece _ => ?_
    rw [Piece.glyphs, Piece.marks, List.map_map, List.map_map]
    rfl
  · rw [hprint, plain, hsnd]

/-- A tree on four lines. Eleven of its parts are coloured. -/
theorem colours_of_returnTree :
    let config : PrintConfig := ⟨30, 2, true, true⟩
    let painter := Engine.greedy.paint .ansi config returnTree
    Engine.greedy.Lawful ∧ ColourWriter.ansi.Lawful ∧
      (∀ below ∈ returnTree.preorder, ∀ symbol ∈ below.symbols, '\x1b' ∉ symbol.value.toList) ∧
      painter.styles = [] ∧ (Terminal.reading painter.output).colour = none ∧
      uncoloured painter.output = returnTree.print config ∧
      returnTree.print config =
        "(ParseRoot 0..8\n  (Return 0..8 ;\n    (Identifier 7..7 x@7..7))\n  (Empty 8..8))" ∧
      (returnTree.parts config).filterMap Part.colour =
        [.blue, .cyan, .blue, .cyan, .magenta, .blue, .cyan, .green, .cyan, .yellow, .cyan] := by
  intro config painter
  have hplain : ∀ below ∈ returnTree.preorder, ∀ symbol ∈ below.symbols,
      '\x1b' ∉ symbol.value.toList := by decide +kernel
  obtain ⟨hstyles, -, hcolour, hagree, -⟩ := colours_agree Engine.greedy Engine.greedy_lawful .ansi
    ColourWriter.ansi_lawful config returnTree hplain
  exact ⟨Engine.greedy_lawful, ColourWriter.ansi_lawful, hplain, hstyles, hcolour, hagree,
    by decide +kernel, by decide +kernel⟩

end Node

end Concretion
