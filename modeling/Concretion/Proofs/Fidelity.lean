import Concretion.Proofs.Paid.Tree

/-!
# Punctuation and keywords are read off the text

Punctuation, operators and keywords are not in the abstract tree, so a recovery puts them where it
finds them in the text, or where it thinks that they should be. It never does the latter in silence:
each of them that does not spell the text at its place comes with a warning of its own.
-/

namespace Concretion

open Recover

/-- The punctuation, operators and keywords of a tree that do not spell the text at their places. -/
def Node.misspelled (node : Node) (source : Source) : List Symbol :=
  (node.preorder.flatMap Node.symbols).filter fun symbol =>
    !symbol.kind.isLiteral && !source.spells symbol

namespace Tariff

theorem symbols_spelling (source : Source) (located : List Symbol) :
    (spelling source).symbols located = (located.filter fun symbol =>
      !symbol.kind.isLiteral && !source.spells symbol).length := by
  induction located with
  | nil => rfl
  | cons symbol rest ih =>
    rw [symbols_cons, ih, List.filter_cons]
    show (if !symbol.kind.isLiteral && !source.spells symbol then 1 else 0) + _ = _
    split
    · rw [List.length_cons, Nat.add_comm]
    · exact Nat.zero_add _

/-- The price of a tree is the number of its symbols that do not spell the text. -/
theorem tree_spelling (source : Source) (node : Node) :
    (spelling source).tree node = (node.misspelled source).length := by
  have hkind : ∀ kind : NodeKind,
      (spelling source).kind kind = (spelling source).symbols kind.symbols := by
    intro kind
    show _ + (if kind.isExport then 0 else 0) = _
    rw [ite_self, Nat.add_zero]
  rw [tree, Node.misspelled]
  induction node.preorder with
  | nil => rfl
  | cons part rest ih =>
    rw [List.map_cons, List.sum_cons, ih, hkind, symbols_spelling, List.flatMap_cons,
      List.filter_append, List.length_append]
    rfl

end Tariff

/-- The punctuation, operators and keywords of a recovered tree that do not spell the text at their
places are no more than there are warnings. Without warnings there are none: each of them is read
off the text. -/
theorem misspelled_le_warnings (program : Program) (text : String) (settings : Settings) :
    let source := Source.ofString text settings.mode
    match (program.concretise text settings).result with
    | .ok concrete =>
      (concrete.root.misspelled source).length ≤ concrete.warnings.length ∧
        (concrete.warnings = [] → ∀ node ∈ concrete.root.preorder, ∀ symbol ∈ node.symbols,
          symbol.kind.isLiteral = false → source.spells symbol = true)
    | .error _ => True := by
  intro source
  split
  · next concrete hresult =>
    let scope := Scope.of text program.info settings
    have hhides : (Tariff.spelling scope.source).Hides program.body.declared :=
      fun _ _ => ⟨fun h => h.elim False.elim fun hpriced => absurd rfl hpriced, .inl rfl⟩
    have hpaid : Pays (Tariff.spelling scope.source) .top 0 program.body.recover :=
      (program.body.paid hhides).relax
    have hle : (concrete.root.misspelled source).length ≤ concrete.warnings.length := by
      have hroot := Program.root_le hpaid hresult
      rw [← Tariff.tree_spelling, ← Nat.one_mul concrete.warnings.length]
      exact hroot
    refine ⟨hle, fun hnone node hnode symbol hsymbol hkind => ?_⟩
    rw [hnone, List.length_nil, Nat.le_zero, List.length_eq_zero_iff, Node.misspelled,
      List.filter_eq_nil_iff] at hle
    have hspelled := hle symbol (List.mem_flatMap.2 ⟨node, hnode, hsymbol⟩)
    simpa [hkind] using hspelled
  · trivial

end Concretion
