import Concretion.Layout.Engine
import Mathlib.Data.List.Basic

/-!
# Rendered documents

What is written for a document is the text of the document, with some of its lines as line breaks
and all others as spaces. Each part of it is written while the innermost style around it is open,
and behind a document the same styles are open as in front of it.

- `Piece`: a part of a text, under a style or under none. `Doc.flat`: the pieces on one line.
- `opened`, `marks`: the styles that are open behind calls, and the characters that are written,
  each with the innermost style that is open.
- `Displays`: calls that write given pieces and leave the open styles as they are.
- `Engine.Lays.displays`: so do the calls for a document, however its styles are nested.
- `Engine.greedy_lawful`: the engine that can be run keeps to the meaning of documents.
-/

namespace Concretion

namespace Layout

/-! ## Pieces -/

/-- A piece of a text that has been laid out. -/
inductive Piece where
  | text (style : Option Style) (text : String)
  /-- A line of a document: a space, or a line break with the given indentation. -/
  | gap (style : Option Style) (indent : Option Nat)
  deriving DecidableEq, Repr, Inhabited

namespace Piece

/-- The style of a piece. -/
def style : Piece → Option Style
  | text style _ | gap style _ => style

/-- The text of a piece. -/
def plain : Piece → String
  | text _ s => s
  | gap _ none => " "
  | gap _ (some indent) => lineBreak indent

/-- A piece as it is on one line. -/
def joined : Piece → Piece
  | text style s => .text style s
  | gap style _ => .gap style none

/-- The characters of a piece with their style. -/
def marks (piece : Piece) : List (Char × Option Style) := piece.plain.toList.map (·, piece.style)

end Piece

/-- The text of several pieces. -/
def plain (pieces : List Piece) : String := String.join (pieces.map Piece.plain)

theorem toList_plain (pieces : List Piece) :
    (plain pieces).toList = (pieces.flatMap Piece.marks).map Prod.fst := by
  rw [plain, String.toList_join, List.flatMap_map, List.map_flatMap]
  refine List.flatMap_congr fun piece _ => ?_
  rw [Piece.marks, List.map_map]
  exact (List.map_id _).symm

namespace Doc

/-- The pieces of a document on one line, where the given style is around it. -/
def flat (style : Option Style) : Doc → List Piece
  | nil => []
  | text s => [.text style s]
  | line => [.gap style none]
  | append first second => first.flat style ++ second.flat style
  | nest _ body | group body => body.flat style
  | annotate inner body => body.flat (some inner)

theorem joined_flat (style : Option Style) (doc : Doc) :
    (doc.flat style).map Piece.joined = doc.flat style := by
  induction doc generalizing style with
  | nil | text | line => rfl
  | append first second hfirst hsecond => rw [flat, List.map_append, hfirst, hsecond]
  | nest _ _ ih | group _ ih => exact ih style
  | annotate inner _ ih => exact ih (some inner)

/-- Does a document have a line? -/
def breaks : Doc → Bool
  | nil | text _ => false
  | line => true
  | append first second => first.breaks || second.breaks
  | nest _ body | group body | annotate _ body => body.breaks

@[simp] theorem flat_append (style : Option Style) (first second : Doc) :
    (first ++ second).flat style = first.flat style ++ second.flat style := rfl

@[simp] theorem breaks_append (first second : Doc) :
    (first ++ second).breaks = (first.breaks || second.breaks) := rfl

@[simp] theorem flatWidth_append (measure : String → Nat) (first second : Doc) :
    (first ++ second).flatWidth measure = first.flatWidth measure + second.flatWidth measure := rfl

end Doc

/-! ## What a renderer is told -/

/-- The styles that are open behind a call. -/
def Call.restyle (styles : List Style) : Call → List Style
  | write _ => styles
  | push style => style :: styles
  | pop => styles.tail

/-- The styles that are open behind several calls. -/
def opened (styles : List Style) (calls : List Call) : List Style :=
  calls.foldl Call.restyle styles

/-- The characters that are written, each with the innermost style that is open. -/
def marks (styles : List Style) : List Call → List (Char × Option Style)
  | [] => []
  | call :: rest => call.text.toList.map (·, styles.head?) ++ marks (call.restyle styles) rest

theorem opened_append (styles : List Style) (before after : List Call) :
    opened styles (before ++ after) = opened (opened styles before) after :=
  List.foldl_append

theorem marks_append (styles : List Style) (before after : List Call) :
    marks styles (before ++ after) = marks styles before ++ marks (opened styles before) after := by
  induction before generalizing styles with
  | nil => rfl
  | cons call rest ih =>
    rw [List.cons_append, marks, marks, ih, List.append_assoc]
    rfl

/-- Styles do not change what is written. -/
theorem toList_written (styles : List Style) (calls : List Call) :
    (written calls).toList = (marks styles calls).map Prod.fst := by
  rw [written, String.toList_join, List.flatMap_map]
  induction calls generalizing styles with
  | nil => rfl
  | cons call rest ih =>
    rw [List.flatMap_cons, ih (call.restyle styles), marks, List.map_append, List.map_map]
    congr 1
    exact (List.map_id _).symm

/-- Where the given styles are open, these pieces are written, and the same styles stay open. -/
structure Displays (styles : List Style) (calls : List Call) (pieces : List Piece) : Prop where
  opened : opened styles calls = styles
  marks : marks styles calls = pieces.flatMap Piece.marks

namespace Displays

variable {styles : List Style} {calls before after : List Call}
  {pieces firstPieces secondPieces : List Piece}

theorem nil : Displays styles [] [] := ⟨rfl, rfl⟩

theorem append (hbefore : Displays styles before firstPieces)
    (hafter : Displays styles after secondPieces) :
    Displays styles (before ++ after) (firstPieces ++ secondPieces) where
  opened := by rw [opened_append, hbefore.opened, hafter.opened]
  marks := by
    rw [marks_append, hbefore.opened, hbefore.marks, hafter.marks, List.flatMap_append]

theorem writes {piece : Piece} (hstyle : piece.style = styles.head?)
    (h : Writes piece.plain calls) : Displays styles calls [piece] := by
  obtain ⟨bits, rfl, hbits⟩ := h
  have hopened : ∀ bits : List String, Layout.opened styles (bits.map .write) = styles := by
    intro bits
    induction bits with
    | nil => rfl
    | cons bit rest ih => exact ih
  have hmarks : ∀ bits : List String, Layout.marks styles (bits.map .write) =
      (String.join bits).toList.map (·, styles.head?) := by
    intro bits
    induction bits with
    | nil => rfl
    | cons bit rest ih =>
      rw [List.map_cons, Layout.marks, String.join_cons, String.toList_append, List.map_append,
        ← ih]
      rfl
  refine ⟨hopened bits, ?_⟩
  rw [hmarks, hbits, List.flatMap_singleton, Piece.marks, hstyle]

/-- What is under a style is written while that style is open. At its end the style around it is
the innermost one again. -/
theorem annotate {style : Style} (h : Displays (style :: styles) calls pieces) :
    Displays styles (.push style :: calls ++ [.pop]) pieces where
  opened := by
    rw [opened_append]
    change (Layout.opened (style :: styles) calls).tail = styles
    rw [h.opened, List.tail_cons]
  marks := by
    rw [marks_append]
    change Layout.marks (style :: styles) calls ++ [] = _
    rw [List.append_nil, h.marks]

/-- What is written is the text of the pieces. -/
theorem written (h : Displays styles calls pieces) : Layout.written calls = plain pieces := by
  rw [← String.toList_inj, toList_written styles, h.marks, toList_plain]

end Displays

/-! ## What is written for a document -/

namespace Engine

variable {engine : Engine} {width : Nat} {form : Form} {indent column last : Nat}
  {behind : List (Nat × Doc)} {doc first second : Doc} {calls : List Call}

theorem Lays.of_append
    (h : engine.Lays width form indent column behind (first ++ second) calls last) :
    ∃ before after middle,
      engine.Lays width form indent column ((indent, second) :: behind) first before middle ∧
        engine.Lays width form indent middle behind second after last ∧
          calls = before ++ after := by
  obtain ⟨⟩ | ⟨⟩ | ⟨⟩ | ⟨⟩ | ⟨hfirst, hsecond⟩ := h
  exact ⟨_, _, _, hfirst, hsecond, rfl⟩

theorem Lays.of_nest {by_ : Int} (hby : 0 ≤ by_)
    (h : engine.Lays width form indent column behind (.nest by_ doc) calls last) :
    engine.Lays width form (indent + by_.toNat) column behind doc calls last := by
  cases h with
  | nest hnext hbody =>
    have hnext := hnext (by omega)
    convert hbody using 1
    omega

/-- However a document is laid out and whatever styles are open around it, its pieces are written,
some of them with line breaks for spaces, and each under the innermost style around it. The
induction is on the document, with more styles open where one is annotated. -/
theorem Lays.displays (h : engine.Lays width form indent column behind doc calls last)
    (styles : List Style) :
    ∃ pieces, Displays styles calls pieces ∧ pieces.map Piece.joined = doc.flat styles.head? ∧
      (form = .flat ∨ doc.breaks = false → pieces = doc.flat styles.head?) := by
  induction h generalizing styles with
  | nil => exact ⟨[], .nil, rfl, fun _ => rfl⟩
  | text hwrites => exact ⟨[.text styles.head? _], .writes rfl hwrites, rfl, fun _ => rfl⟩
  | space hwrites => exact ⟨[.gap styles.head? none], .writes rfl hwrites, rfl, fun _ => rfl⟩
  | @newline _ _ next _ _ _ hwrites =>
    refine ⟨[.gap styles.head? (some next)], .writes rfl hwrites, rfl, ?_⟩
    rintro (hform | hbreaks)
    · cases hform
    · cases hbreaks
  | append _ _ hfirst hsecond =>
    obtain ⟨firstPieces, hbefore, hjoined, hflat⟩ := hfirst styles
    obtain ⟨secondPieces, hafter, hjoined', hflat'⟩ := hsecond styles
    refine ⟨_, hbefore.append hafter, ?_, fun hkept => ?_⟩
    · rw [List.map_append, hjoined, hjoined', Doc.flat]
    · rw [Doc.breaks, Bool.or_eq_false_iff] at hkept
      rw [hflat (hkept.imp_right And.left), hflat' (hkept.imp_right And.right), Doc.flat]
  | nest _ _ ih => exact ih styles
  | inner _ ih => exact ih styles
  | kept _ _ ih =>
    obtain ⟨pieces, hdisplays, hjoined, hflat⟩ := ih styles
    exact ⟨pieces, hdisplays, hjoined, fun _ => hflat (.inl rfl)⟩
  | broken _ _ ih => exact ih styles
  | @annotate _ _ _ _ _ style _ _ _ ih =>
    obtain ⟨pieces, hdisplays, hjoined, hflat⟩ := ih (style :: styles)
    exact ⟨pieces, hdisplays.annotate, hjoined, hflat⟩

/-- Without line breaks, the pieces on one line are written. -/
theorem Lays.displays_flat (h : engine.Lays width form indent column behind doc calls last)
    (hkept : form = .flat ∨ doc.breaks = false) (styles : List Style) :
    Displays styles calls (doc.flat styles.head?) := by
  obtain ⟨pieces, hdisplays, -, hflat⟩ := h.displays styles
  exact hflat hkept ▸ hdisplays

/-! ## The engine that can be run -/

theorem writes_singleton (s : String) : Writes s [.write s] := ⟨[s], rfl, by simp⟩

theorem lays_flat (width : Nat) : (doc : Doc) → (indent column : Nat) →
    (behind : List (Nat × Doc)) →
      greedy.Lays width .flat indent column behind doc (Greedy.flat doc)
        (column + doc.flatWidth String.length)
  | .nil, _, _, _ => .nil
  | .text s, _, _, _ => .text (writes_singleton s)
  | .line, _, _, _ => .space (writes_singleton " ")
  | .append first second, indent, column, behind => by
    rw [Doc.flatWidth, ← Nat.add_assoc]
    exact .append (lays_flat width first indent column _) (lays_flat width second indent _ behind)
  | .nest _ body, _, column, behind =>
    .nest Int.toNat_of_nonneg (lays_flat width body _ column behind)
  | .group body, indent, column, behind => .inner (lays_flat width body indent column behind)
  | .annotate _ body, indent, column, behind =>
      .annotate (lays_flat width body indent column behind)

theorem lays_broken (width : Nat) : (doc : Doc) → (indent column : Nat) →
    (behind : List (Nat × Doc)) →
      let laid := Greedy.broken width doc indent (greedy.trail (behind.map Prod.snd)) column
      greedy.Lays width .broken indent column behind doc laid.1 laid.2
  | .nil, _, _, _ => .nil
  | .text s, _, _, _ => .text (writes_singleton s)
  | .line, _, _, _ => .newline (.inl rfl) (writes_singleton _)
  | .append first second, indent, column, behind =>
    .append (lays_broken width first indent column _) (lays_broken width second indent _ behind)
  | .nest _ body, _, column, behind =>
    .nest Int.toNat_of_nonneg (lays_broken width body _ column behind)
  | .group body, indent, column, behind => by
    cases hfits : greedy.fits width column body (behind.map Prod.snd) with
    | true =>
      have hlaid : Greedy.broken width (.group body) indent
          (greedy.trail (behind.map Prod.snd)) column =
            (Greedy.flat body, column + body.flatWidth String.length) := if_pos hfits
      rw [hlaid]
      exact .kept hfits (lays_flat width body indent column behind)
    | false =>
      have hlaid : Greedy.broken width (.group body) indent
          (greedy.trail (behind.map Prod.snd)) column =
            Greedy.broken width body indent (greedy.trail (behind.map Prod.snd)) column :=
        if_neg (Bool.eq_false_iff.1 hfits)
      rw [hlaid]
      exact .broken hfits (lays_broken width body indent column behind)
  | .annotate _ body, indent, column, behind =>
    .annotate (lays_broken width body indent column behind)

theorem greedy_lawful : greedy.Lawful where
  measure_ascii _ _ := rfl
  room_of_fits {width column group behind} hfits hgroup := by
    have hroom : ((group.flatWidth String.length + greedy.trail behind == 0) ||
        decide (column + (group.flatWidth String.length + greedy.trail behind) ≤ width)) = true :=
      hfits
    have hnonempty : group.flatWidth String.length ≠ 0 := hgroup
    change column + group.flatWidth String.length ≤ width
    simp only [Bool.or_eq_true, beq_iff_eq, decide_eq_true_eq] at hroom
    omega
  fits_of_room {width column group behind} hroom := by
    have hroom : column + group.flatWidth String.length + greedy.trail behind ≤ width := hroom
    change ((group.flatWidth String.length + greedy.trail behind == 0) ||
        decide (column + (group.flatWidth String.length + greedy.trail behind) ≤ width)) = true
    simp only [Bool.or_eq_true, beq_iff_eq, decide_eq_true_eq]
    omega
  lays width doc := ⟨_, lays_broken width doc 0 0 []⟩

end Engine

end Layout

end Concretion
