import Concretion.Proofs.Written.Statements
import Concretion.Proofs.Written.Valid

/-!
# The tree of a written module is well laid out

Statements are written one behind the other, and so are the bindings of each of them, so that their
nodes lie apart.

- `Specifier.solid`: the node of a binding ends in front of the name that the binding repeats.
- `Statement.solid`: the node of a statement goes from its keyword to the name of the module.
- `Manuscript.check_tree`: the tree of a module passes the check.
-/

namespace Concretion

namespace Written

open Text Chunk Node

/-! ## Bindings -/

theorem Specifier.solid_bare (word : Word) (offset : Nat) :
    (bare word offset).Solid ⟨offset, offset + width word.chars⟩ := by
  have hword : (word.node offset).Solid ⟨offset, offset + width word.chars⟩ := word.solid offset
  refine solid_branch hword.nonempty rfl rfl (List.forall_mem_nil _) ?_
  exact checkChildren_solid hword (Nat.le_refl _) (Nat.le_refl _) (endsBefore_none _)
    (endsBefore_none _) rfl

/-- The node of a binding lies inside of the binding, and only what is left over is behind it. -/
theorem Specifier.solid (specifier : Specifier) (offset : Nat) :
    ∃ start head, specifier.chunks = head ++ specifier.leftover ∧ offset ≤ start ∧
      (specifier.node offset).Solid ⟨start, offset + size head⟩ := by
  cases specifier with
  | standard binder | plain binder =>
    refine ⟨offset, [.word binder.toWord], rfl, Nat.le_refl _, ?_⟩
    rw [size_word]
    exact solid_bare binder.toWord offset
  | star beforeAs afterAs binder =>
    have hpos := width_pos binder.nonempty
    have hsize : offset + size (star beforeAs afterAs binder).chunks =
        offset + 1 + size (link beforeAs afterAs) + width binder.chars := by
      rw [chunks, size_cons, size_sign, size_append, size_word]
      omega
    refine ⟨offset, (star beforeAs afterAs binder).chunks, (List.append_nil _).symm,
      Nat.le_refl _, ?_⟩
    rw [hsize]
    refine solid_branch (by simp only; omega) rfl rfl (List.forall_mem_singleton.2 ?_) ?_
    · refine symbolAt_inside .star (Nat.le_refl _) ?_
      show offset + 1 ≤ offset + 1 + size (link beforeAs afterAs) + width binder.chars
      omega
    · exact checkChildren_solid (binder.solid _) (by simp only; omega) (Nat.le_refl _)
        (endsBefore_none _) (endsBefore_none _) rfl
  | renamed name beforeAs afterAs binder =>
    have hpos := width_pos binder.nonempty
    have hpos' := width_pos name.nonempty
    have hsize : offset + size (renamed name beforeAs afterAs binder).chunks =
        offset + width name.chars + size (link beforeAs.gap afterAs) + width binder.chars := by
      rw [chunks, size_cons, size_word, size_append, size_word]
      omega
    rw [node, leftover]
    -- A renamed default has a node for the binder alone, and a name repeated has one for its first
    -- occurrence. Only in the second case something is left over.
    by_cases hdefault : name.text = defaultName
    · rw [if_pos hdefault, if_neg fun hboth => hboth.1 hdefault]
      refine ⟨_, _, (List.append_nil _).symm, ?_, hsize ▸ solid_bare binder.toWord _⟩
      omega
    · by_cases hsame : name.text = binder.text
      · rw [if_neg hdefault, if_pos hsame, if_pos ⟨hdefault, hsame⟩]
        refine ⟨offset, [.word name.toWord], rfl, Nat.le_refl _, ?_⟩
        rw [size_word]
        exact solid_bare name.toWord offset
      · rw [if_neg hdefault, if_neg hsame, if_neg fun hboth => hsame hboth.2]
        refine ⟨offset, _, (List.append_nil _).symm, Nat.le_refl _, ?_⟩
        rw [hsize]
        refine solid_branch (by simp only; omega) rfl rfl (List.forall_mem_nil _) ?_
        exact checkChildren_pair (name.solid _) (binder.solid _) (Nat.le_refl _)
          (by simp only; omega) (Nat.le_refl _)

/-- Bindings lie one behind the other. -/
theorem Clause.laid (parts : List Part) {offset : Nat} {kind : NodeKind} {range : Range}
    {previous solid : Option Span} (hs : range.start ≤ offset)
    (hf : offset + size (parts.flatMap Part.chunks) ≤ range.finish)
    (hprevious : EndsBefore offset previous) (hsolid : EndsBefore offset solid) :
    checkChildren kind range.span previous solid (nodes offset parts) = .ok () := by
  induction parts generalizing offset previous solid with
  | nil => rfl
  | cons part rest ih =>
    obtain ⟨start, head, hchunks, hstart, hnode⟩ := part.specifier.solid offset
    have hsize :
        size part.chunks = size head + size part.specifier.leftover + size part.joints := by
      rw [Part.chunks, hchunks, size_append, size_append]
    rw [List.flatMap_cons, size_append] at hf
    have hends :
        EndsBefore (offset + size part.chunks) (some (Range.span ⟨start, offset + size head⟩)) :=
      endsBefore_range hnode.nonempty (by simp only; omega)
    rw [nodes]
    refine checkChildren_solid hnode (by simp only; omega) (by simp only; omega)
      (hprevious.mono hstart) (hsolid.mono hstart) ?_
    exact ih (by omega) (by omega) hends hends

/-! ## Statements -/

namespace Statement

variable (statement : Statement) (source : Source) (offset : Nat)

/-- The offset at which the name of the module starts. -/
def pathStart : Nat := offset + size (.word statement.body.keyword :: statement.body.chunks)

theorem core_eq : statement.core =
    (.word statement.body.keyword :: statement.body.chunks) ++ [.quoted statement.path] := rfl

theorem size_core : offset + size statement.core =
    statement.pathStart offset + (width statement.path.content + 2) := by
  rw [core_eq, size_append, size_quoted, pathStart, Nat.add_assoc]

theorem length_keyword (body : Body) :
    max (Token.keyword body.keyword.text).length 1 = width body.keyword.chars := by
  cases body <;> rfl

theorem keyword_inside :
    offset ≤ ((Token.keyword statement.body.keyword.text).symbolAt offset).span.start ∧
      ((Token.keyword statement.body.keyword.text).symbolAt offset).span.last <
        offset + size statement.core := by
  let range : Range := ⟨offset, offset + size statement.core⟩
  have hs : range.start ≤ offset := Nat.le_refl _
  have hf : offset + max (Token.keyword statement.body.keyword.text).length 1 ≤ range.finish := by
    show _ ≤ offset + size statement.core
    rw [length_keyword, core, size_cons, size_word]
    omega
  exact symbolAt_inside _ hs hf

theorem path_inside :
    offset ≤ (Range.span ⟨statement.pathStart offset, offset + size statement.core⟩).start ∧
      (Range.span ⟨statement.pathStart offset, offset + size statement.core⟩).last <
        offset + size statement.core := by
  have hcore := statement.size_core offset
  have hstart : offset ≤ statement.pathStart offset := Nat.le_add_right _ _
  simp only [Range.span, Span.ofBounds]
  omega

/-- The node of a statement passes the check, and goes from the keyword to the name of the module.
-/
theorem solid : (statement.node source offset).Solid ⟨offset, offset + size statement.core⟩ := by
  have hnonempty : offset < offset + size statement.core := by
    have hcore := statement.size_core offset
    have hstart : offset ≤ statement.pathStart offset := Nat.le_add_right _ _
    omega
  have hsymbols : ∀ symbol ∈ [(Token.keyword statement.body.keyword.text).symbolAt offset,
      (⟨.string, Range.span ⟨statement.pathStart offset, offset + size statement.core⟩,
        String.ofList statement.path.chars⟩ : Symbol)],
      offset ≤ symbol.span.start ∧ symbol.span.last < offset + size statement.core :=
    List.forall_mem_cons.2 ⟨statement.keyword_inside offset,
      List.forall_mem_singleton.2 (statement.path_inside offset)⟩
  have hnode : (branch (statement.node source offset).kind
      (Range.span ⟨offset, offset + size statement.core⟩)
      (statement.node source offset).children).Solid ⟨offset, offset + size statement.core⟩ := by
    obtain ⟨before, body, path, behind⟩ := statement
    -- The node of an import statement has its bindings for children, that of an export statement
    -- none.
    cases body with
    | exports beforeStar afterStar afterFrom =>
      refine solid_branch hnonempty rfl rfl ?_ rfl
      exact hsymbols
    | imports clause afterFrom =>
      refine solid_branch hnonempty rfl rfl ?_ ?_
      · exact hsymbols
      · refine Clause.laid clause.parts (Nat.le_add_right _ _) ?_ (endsBefore_none _)
          (endsBefore_none _)
        have hsize : size (core ⟨before, .imports clause afterFrom, path, behind⟩) =
            size (.word .import :: clause.joints) + (size (clause.parts.flatMap Part.chunks) +
              (size (.word .from :: spread afterFrom) + size [.quoted path])) := by
          simp only [← size_append, core, Body.chunks, Clause.chunks, List.append_assoc,
            List.cons_append]
          rfl
        simp only [hsize]
        omega
  exact hnode.withSemicolon _

/-- Statements lie one behind the other. -/
theorem laid (statements : List Statement) {offset : Nat} {kind : NodeKind} {range : Range}
    {previous solid : Option Span} (hs : range.start ≤ offset)
    (hf : offset + size (statements.flatMap chunks) ≤ range.finish)
    (hprevious : EndsBefore offset previous) (hsolid : EndsBefore offset solid) :
    checkChildren kind range.span previous solid (nodes source offset statements) = .ok () := by
  induction statements generalizing offset previous solid with
  | nil => rfl
  | cons statement rest ih =>
    have hsize : size statement.chunks = size (spread statement.before) +
        (size statement.core + size (spread statement.behind ++ [.sign .semicolon] :
          List Chunk)) := by
      rw [chunks, size_append, size_append]
    have hnode := statement.solid source (offset + size (spread statement.before))
    have hstart : offset ≤ offset + size (spread statement.before) := Nat.le_add_right _ _
    rw [List.flatMap_cons, size_append] at hf
    have hends : EndsBefore (offset + size statement.chunks) (some (Range.span
        ⟨offset + size (spread statement.before),
          offset + size (spread statement.before) + size statement.core⟩)) :=
      endsBefore_range hnode.nonempty (by simp only; omega)
    rw [nodes]
    refine checkChildren_solid hnode (by simp only; omega) (by simp only; omega)
      (hprevious.mono hstart) (hsolid.mono hstart) ?_
    exact ih (by omega) (by omega) hends hends

end Statement

/-- The tree of a module passes the check. -/
theorem Manuscript.check_tree (manuscript : Manuscript) : manuscript.tree.check = .ok () := by
  refine (check_branch_iff rfl rfl).2 ⟨List.forall_mem_nil _, ?_⟩
  refine Statement.laid manuscript.source manuscript.statements (Nat.zero_le _) ?_
    (endsBefore_none _) (endsBefore_none _)
  rw [chunks, size_append]
  simp only
  omega

end Written

end Concretion
