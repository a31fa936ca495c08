import Concretion.Concrete.Invariant
import Concretion.Proofs.Order

/-!
# Trees that pass the check

The check of a tree reports the first thing that is wrong. A tree passes it just if nothing is.

- `Node.checkSelf_eq_ok_iff`, `Node.checkChild_eq_ok_iff`: what is asked of a node on its own, and
  of a child next to its parent and the children before it.
- `Node.check_eq_ok_iff`, `Node.checkChildren_cons_eq_ok_iff`: how the check goes through a tree.
- `Node.cover_of_check`: the nodes of a tree that passes the check lie around their children.
-/

namespace Concretion

namespace Node

/-! ## Checks in sequence -/

theorem throw_eq_ok_iff {violation : Violation} :
    (throw violation : Except Violation Unit) = .ok () ↔ False := by
  constructor
  · rintro ⟨⟩
  · exact False.elim

/-- A check goes on where there is nothing to complain of. -/
theorem unless_eq_ok_iff {wrong : Prop} [Decidable wrong] {violation : Violation}
    {next : Unit → Except Violation Unit} :
    (if wrong then (throw violation : Except Violation Unit) >>= next else next ()) = .ok () ↔
      ¬ wrong ∧ next () = .ok () := by
  by_cases hwrong : wrong
  · rw [if_pos hwrong]
    constructor
    · rintro ⟨⟩
    · exact fun h => absurd hwrong h.1
  · rw [if_neg hwrong]
    exact (and_iff_right hwrong).symm

theorem andThen_eq_ok_iff {first next : Except Violation Unit} :
    (first >>= fun _ => next) = .ok () ↔ first = .ok () ∧ next = .ok () := by
  cases first with
  | error violation =>
    constructor
    · rintro ⟨⟩
    · rintro ⟨⟨⟩, -⟩
  | ok => exact (and_iff_right rfl).symm

/-! ## A node and its children -/

variable {kind childKind : NodeKind} {span child : Span} {previous solid : Option Span}

theorem checkSelf_eq_ok_iff {childCount : Nat} :
    checkSelf kind span childCount = .ok () ↔
      (kind.isPlaceholder = true → span.start = span.last) ∧
        (∀ expected ∈ kind.arity?, childCount = expected) ∧
          ∀ symbol ∈ kind.symbols, span.contains symbol.span = true := by
  have hfind : (∀ symbol ∈ kind.symbols, span.contains symbol.span = true) ↔
      kind.symbols.find? (!span.contains ·.span) = none := by
    simp only [List.find?_eq_none, Bool.not_eq_true', Bool.not_eq_false]
  unfold checkSelf
  rw [unless_eq_ok_iff, hfind]
  refine and_congr (by simp) ?_
  cases kind.arity? with
  | none =>
    cases kind.symbols.find? (!span.contains ·.span) <;> simp [throw_eq_ok_iff, pure, Except.pure]
  | some expected =>
    refine Iff.trans unless_eq_ok_iff (and_congr (by simp) ?_)
    cases kind.symbols.find? (!span.contains ·.span) <;> simp [throw_eq_ok_iff, pure, Except.pure]

/-- Kinds with any number of children are checked for their symbols alone. -/
theorem checkSelf_iff {childCount : Nat} (hkind : kind.isPlaceholder = false)
    (harity : kind.arity? = none) :
    checkSelf kind span childCount = .ok () ↔
      ∀ symbol ∈ kind.symbols, span.contains symbol.span = true := by
  rw [checkSelf_eq_ok_iff, hkind, harity]
  simp

theorem checkChild_eq_ok_iff :
    checkChild kind span previous solid childKind child = .ok () ↔
      span.contains child = true ∧ (∀ other ∈ previous, other.start ≤ child.start) ∧
        (childKind.isPlaceholder = false → ∀ other ∈ solid, other.disjoint child = true) := by
  unfold checkChild
  rw [unless_eq_ok_iff]
  refine and_congr (by simp) ?_
  cases previous with
  | none =>
    cases childKind.isPlaceholder <;> cases solid <;> simp [throw_eq_ok_iff, pure, Except.pure]
  | some before =>
    refine Iff.trans unless_eq_ok_iff (and_congr (by simp) ?_)
    cases childKind.isPlaceholder <;> cases solid <;> simp [throw_eq_ok_iff, pure, Except.pure]

/-- A child behind all the children before it. -/
theorem checkChild_ok (hinside : span.contains child = true)
    (hprevious : ∀ other ∈ previous, other.start ≤ child.start)
    (hsolid : childKind.isPlaceholder = true ∨ ∀ other ∈ solid, other.last < child.start) :
    checkChild kind span previous solid childKind child = .ok () := by
  refine checkChild_eq_ok_iff.2 ⟨hinside, hprevious, fun hkind other hother => ?_⟩
  obtain hplaceholder | hsolid := hsolid
  · rw [hkind] at hplaceholder
    cases hplaceholder
  · simp [Span.disjoint, hsolid other hother]

/-! ## Trees -/

theorem check_eq_ok_iff {node : Node} :
    node.check = .ok () ↔ checkSelf node.kind node.span node.children.length = .ok () ∧
      checkChildren node.kind node.span none none node.children = .ok () := by
  obtain ⟨kind, span, children, ownsSemicolon⟩ := node
  exact andThen_eq_ok_iff

theorem checkChildren_cons_eq_ok_iff {first : Node} {rest : List Node} :
    checkChildren kind span previous solid (first :: rest) = .ok () ↔
      checkChild kind span previous solid first.kind first.span = .ok () ∧ first.check = .ok () ∧
        checkChildren kind span (some first.span)
          (if first.isPlaceholder then solid else some first.span) rest = .ok () :=
  andThen_eq_ok_iff.trans (and_congr_right fun _ => andThen_eq_ok_iff)

theorem check_branch_iff {children : List Node} (hkind : kind.isPlaceholder = false)
    (harity : kind.arity? = none) :
    (branch kind span children).check = .ok () ↔
      (∀ symbol ∈ kind.symbols, span.contains symbol.span = true) ∧
        checkChildren kind span none none children = .ok () :=
  check_eq_ok_iff.trans (and_congr_left fun _ => checkSelf_iff hkind harity)

theorem contains_of_checkChildren {children : List Node}
    (h : checkChildren kind span previous solid children = .ok ()) :
    ∀ child ∈ children, span.contains child.span = true := by
  induction children generalizing previous solid with
  | nil => exact List.forall_mem_nil _
  | cons first rest ih =>
    obtain ⟨hfirst, -, hrest⟩ := checkChildren_cons_eq_ok_iff.1 h
    exact List.forall_mem_cons.2 ⟨(checkChild_eq_ok_iff.1 hfirst).1, ih hrest⟩

/-- A node whose children lie inside of its span covers them already. -/
theorem cover_of_contains {node : Node} (ho : node.span.Ordered)
    (h : ∀ child ∈ node.children, node.span.contains child.span = true) :
    node.cover = .ok node := by
  obtain ⟨kind, span, children, ownsSemicolon⟩ := node
  have hspan : span.Ordered := ho
  have hinside : ∀ child ∈ children, span.contains child.span = true := h
  have hfold : children.foldlM (fun span child => span.merge child.span) span = .ok span := by
    clear h ho
    induction children with
    | nil => rfl
    | cons child rest ih =>
      obtain ⟨hchild, hrest⟩ := List.forall_mem_cons.1 hinside
      rw [Span.contains_iff] at hchild
      rw [List.foldlM_cons, Span.merge_of_ordered (.inl hspan), Nat.min_eq_left hchild.1,
        Nat.max_eq_left hchild.2]
      exact ih hrest
  simp only [cover, hfold]
  rfl

/-- The children of a tree that passes the check lie inside of its span. -/
theorem cover_of_check {node : Node} (h : node.check = .ok ()) (ho : node.span.Ordered) :
    node.cover = .ok node :=
  cover_of_contains ho (contains_of_checkChildren (check_eq_ok_iff.1 h).2)

end Node

end Concretion
