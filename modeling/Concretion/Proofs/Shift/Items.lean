import Concretion.Proofs.Shift.Steps
import Concretion.Recovery.Rule.ModuleItems

/-!
# Imports and exports that move with the text

Statements known from the metadata of a module alone are looked for from the beginning of the text.
No string literal and no keyword stands in the blank space, so none is found there.
-/

namespace Concretion

open Recover Text

variable {indent : Indent}

namespace Rule

/-! ## Imports -/

theorem shifts_importedName (name : String) (start finish : Nat) :
    Shifts indent (importedName name start finish)
      (importedName name (indent.width + start) (indent.width + finish))
      (Option.map (Node.shift indent.width)) := by
  refine Tracks.source ((Shifts.settle? fun _ => Indent.locateWord_moved).bind fun found => ?_)
  cases found with
  | none => exact .pure rfl
  | some offset =>
    dsimp only [Option.map_some]
    rw [Nat.add_assoc]
    exact (Shifts.identifier _ _ _).bind fun node => .pure rfl

theorem shifts_namespaceSpecifier (entry : ImportEntry) (start finish : Nat) :
    Shifts indent (namespaceSpecifier entry start finish)
      (namespaceSpecifier entry (indent.width + start) (indent.width + finish))
      (Option.map (Node.shift indent.width)) := by
  refine Tracks.source ((Shifts.settle? fun _ => Indent.locate_moved).bind fun found => ?_)
  cases found with
  | none => exact .pure rfl
  | some offset =>
    refine (Shifts.symbolAt _ _).bind fun star => ?_
    refine (shifts_importedName _ (star.span.last + 1) _).bind fun name => ?_
    cases name with
    | none => exact .pure rfl
    | some name =>
      dsimp only [Option.map_some]
      rw [name.span_shift]
      exact (Shifts.mergeSpans _ _).bind fun span => .pure rfl

theorem shifts_specifierAround (first : Node) (second : Option Node) :
    Shifts indent (specifierAround first second)
      (specifierAround (first.shift indent.width) (second.map (Node.shift indent.width)))
      (Option.map (Node.shift indent.width)) := by
  unfold specifierAround
  cases second with
  | none =>
    dsimp only [Option.map_none, Option.getD_none]
    rw [first.span_shift]
    exact (Shifts.mergeSpans _ _).bind fun span => .pure rfl
  | some second =>
    dsimp only [Option.map_some, Option.getD_some]
    rw [first.span_shift, second.span_shift]
    exact (Shifts.mergeSpans _ _).bind fun span => .pure rfl

theorem shifts_nameSpecifier (entry : ImportEntry) (start finish : Nat) :
    Shifts indent (nameSpecifier entry start finish)
      (nameSpecifier entry (indent.width + start) (indent.width + finish))
      (Option.map (Node.shift indent.width)) := by
  rw [nameSpecifier, nameSpecifier]
  refine (shifts_importedName _ _ _).bind fun first => ?_
  cases first with
  | none => exact .pure rfl
  | some first =>
    dsimp only [Option.map_some]
    refine .ite Iff.rfl (fun _ => shifts_specifierAround first none) fun _ => ?_
    rw [first.last_shift]
    exact (shifts_importedName _ (first.last + 1) _).bind (shifts_specifierAround first)

theorem shifts_specifiers (finish : Nat) (entries : List ImportEntry) (start : Nat) :
    Shifts indent (specifiers finish entries start)
      (specifiers (indent.width + finish) entries (indent.width + start))
      (List.map (Node.shift indent.width)) := by
  induction entries generalizing start with
  | nil => exact .pure rfl
  | cons entry rest ih =>
    have hrest : ∀ found : Option Node,
        Shifts indent (specifiersBehind (specifiers finish rest) start found)
          (specifiersBehind (specifiers (indent.width + finish) rest) (indent.width + start)
            (found.map (Node.shift indent.width))) (List.map (Node.shift indent.width)) := by
      intro found
      cases found with
      | none => exact ih start
      | some specifier =>
        unfold specifiersBehind
        dsimp only [Option.map_some]
        rw [specifier.last_shift]
        exact (ih (specifier.last + 1)).bind fun nodes => .pure rfl
    rw [specifiers, specifiers]
    refine .ite Iff.rfl (fun _ => ?_) fun _ => ?_
    · exact (shifts_namespaceSpecifier _ _ _).bind hrest
    · exact (shifts_nameSpecifier _ _ _).bind hrest

/-! ## Statements -/

/-- The keyword and the string of a statement, moved to the right. -/
def shiftPlace (count : Nat) (place : Symbol × Range) : Symbol × Range :=
  (place.1.shift count, place.2.shift count)

section Cursor

variable {cursor cursor' : Nat} (hlow : indent.Low cursor cursor')

include hlow

theorem shifts_moduleStatement {keyword : String} (hword : isSolid keyword = true)
    (context request : String) :
    Shifts indent (moduleStatement keyword context request cursor)
      (moduleStatement keyword context request cursor')
      (Option.map (shiftPlace indent.width)) := by
  refine Tracks.source ?_
  rw [indent.size_moved]
  refine (Shifts.settle? fun _ => Indent.locateString_low hlow).bind fun path => ?_
  cases path with
  | none => exact .pure rfl
  | some path =>
    refine (Shifts.settle? fun _ => Indent.locateLastWord_low hlow hword).bind fun offset => ?_
    cases offset with
    | none => exact .pure rfl
    | some offset => exact (Shifts.symbolAt _ _).bind fun symbol => .pure rfl

theorem tracks_importStatement (request : String) (entries : List ImportEntry) :
    Tracks indent (importStatement request entries cursor)
      (importStatement request entries cursor') fun found moved =>
        moved.1 = found.1.map (Node.shift indent.width) ∧ indent.Low found.2 moved.2 := by
  refine (shifts_moduleStatement hlow (by decide) _ _).bind fun place => ?_
  cases place with
  | none => exact .pure ⟨rfl, hlow⟩
  | some place =>
    obtain ⟨keyword, path⟩ := place
    refine (shifts_specifiers path.start _ (keyword.span.last + 1)).bind fun names => ?_
    dsimp only [shiftPlace]
    rw [path.span_shift]
    refine (Shifts.symbolOver _ path.span).bind fun symbol => ?_
    refine (Shifts.endsWithSemicolon _).bind fun flag => .pure ⟨?_, .inl rfl⟩
    dsimp only [Option.map_some]
    rw [Node.shift_eq, ← Span.ofBounds_shift]
    rfl

theorem shifts_importGroups (groups : List (List ImportEntry)) :
    Shifts indent (importGroups groups cursor) (importGroups groups cursor')
      (List.map (Node.shift indent.width)) := by
  induction groups generalizing cursor cursor' with
  | nil => exact .pure rfl
  | cons entries rest ih =>
    refine (tracks_importStatement hlow _ _).bind fun found moved hfound => ?_
    obtain ⟨statement, next⟩ := found
    obtain ⟨statement', next'⟩ := moved
    obtain ⟨hstatement, hnext⟩ := hfound
    have hstatement : statement' = statement.map (Node.shift indent.width) := hstatement
    subst hstatement
    refine (ih hnext).bind fun nodes => .pure ?_
    rw [List.map_append, Option.toList_map]

/-! ## Exports -/

theorem shifts_starExports (entries : List ExportEntry) :
    Shifts indent (starExports entries cursor) (starExports entries cursor')
      (List.map (Node.shift indent.width)) := by
  induction entries generalizing cursor cursor' with
  | nil => exact .pure rfl
  | cons entry rest ih =>
    unfold starExports
    cases entry.request with
    | none => exact ih hlow
    | some request =>
      refine (shifts_moduleStatement hlow (by decide) _ _).bind fun place => ?_
      cases place with
      | none => exact ih hlow
      | some place =>
        obtain ⟨keyword, path⟩ := place
        dsimp only [shiftPlace, Option.map_some]
        rw [path.span_shift]
        refine (Shifts.symbolOver _ path.span).bind fun symbol => ?_
        refine (Shifts.endsWithSemicolon _).bind fun flag => ?_
        refine (ih (.inl rfl)).bind fun nodes => .pure ?_
        rw [List.map_cons, Node.shift_eq, ← Span.ofBounds_shift]
        rfl

end Cursor

/-! ## Merging -/

/-- The statements of a module are sorted by their places in both texts. -/
theorem follows_moduleItems (info : ModuleInfo) :
    Follows indent (moduleItems info) (moduleItems info) := by
  have hlow : indent.Low 0 0 := .inr ⟨rfl, rfl⟩
  refine (shifts_importGroups hlow _).bind fun statements => ?_
  refine (shifts_starExports hlow _).bind fun reexports => ?_
  dsimp only
  rw [← List.map_append]
  refine .ite ?_ (fun _ => ?_) fun _ => .pure trivial
  · rw [List.isEmpty_map]
  refine (Follows.note _ _).andThen (Follows.setChildren fun stack => ⟨_, rfl, ?_⟩)
  rw [stack.children_shift, ← List.map_append]
  refine congrArg _ (List.map_mergeSort fun a _ b _ => ?_).symm
  rw [a.start_shift, b.start_shift]
  exact decide_eq_decide.2 Nat.add_le_add_iff_left.symm

end Rule

end Concretion
