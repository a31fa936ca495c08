import Concretion.Proofs.Layout
import Concretion.Proofs.Nesting

/-!
# What the check decides

The check compares each child of a node with the child before it and with the last child before it
that is no placeholder. It decides by that whether *any* two children are in order and apart,
because both relations carry over from neighbours to all pairs as long as every span has its ends in
order.

- `Span.Meets`: two spans share an offset.
- `Node.WellLaid`: what the invariants ask of a node and all of its children.
- `Node.checkChildren_eq_ok_iff`: what the check of the remaining children comes to, by induction on
  the children; the last two children that it remembers stand for all earlier ones.
- `Node.at?`: the node that a path of child numbers leads to. Two nodes of a tree are told apart by
  their paths, and one lies below the other if its path continues the path of the other.
- `Node.check_decides_layout`: the check decides the invariants, and in a tree that passes it nodes
  share an offset only if one lies below the other.
-/

namespace Concretion

/-- The spans share an offset. -/
def Span.Meets (a b : Span) : Prop :=
  ∃ offset, a.containsOffset offset = true ∧ b.containsOffset offset = true

namespace Span

variable {a b c d : Span}

theorem meets_iff (ha : a.Ordered) (hb : b.Ordered) :
    a.Meets b ↔ a.start ≤ b.last ∧ b.start ≤ a.last := by
  simp only [Meets, containsOffset, Bool.and_eq_true, decide_eq_true_eq]
  simp only [Ordered] at ha hb
  constructor
  · rintro ⟨offset, hina, hinb⟩
    omega
  · intro h
    -- the later one of the two starts lies in both
    exact ⟨max a.start b.start, by omega⟩

theorem Meets.symm (h : a.Meets b) : b.Meets a := by
  obtain ⟨offset, ha, hb⟩ := h
  exact ⟨offset, hb, ha⟩

/-- Spans that meet still do when they are widened. -/
theorem Meets.mono (h : a.Meets b) (ha : c.contains a = true) (hb : d.contains b = true) :
    c.Meets d := by
  obtain ⟨offset, hina, hinb⟩ := h
  simp only [containsOffset, Bool.and_eq_true, decide_eq_true_eq] at hina hinb
  rw [contains_iff] at ha hb
  refine ⟨offset, ?_⟩
  simp only [containsOffset, Bool.and_eq_true, decide_eq_true_eq]
  omega

/-- A span that begins no earlier than another is disjoint from it just if it begins behind it. -/
theorem disjoint_iff_lt (hb : b.Ordered) (h : a.start ≤ b.start) :
    a.disjoint b = true ↔ a.last < b.start := by
  simp only [Ordered] at hb
  simp only [disjoint, Bool.or_eq_true, decide_eq_true_eq]
  omega

/-- Spans in order that are not disjoint share an offset. -/
theorem not_meets_iff (ha : a.Ordered) (hb : b.Ordered) : ¬ a.Meets b ↔ a.disjoint b = true := by
  rw [meets_iff ha hb]
  simp only [disjoint, Bool.or_eq_true, decide_eq_true_eq]
  omega

end Span

namespace Node

/-- What the invariants ask of a node and its children: a placeholder is no wider than one offset, a
kind of fixed arity has as many children as it says, symbols and children lie within the node, the
starts of the children never decrease, and any two children that are no placeholders share no
offset. -/
structure WellLaid (node : Node) : Prop where
  placeholder : node.isPlaceholder = true → node.start = node.last
  arity : ∀ count ∈ node.kind.arity?, node.children.length = count
  symbols : ∀ symbol ∈ node.symbols, node.start ≤ symbol.span.start ∧ symbol.span.last ≤ node.last
  children : ∀ child ∈ node.children, node.start ≤ child.start ∧ child.last ≤ node.last
  ordered : node.children.Pairwise fun a b => a.start ≤ b.start
  apart : node.children.Pairwise fun a b =>
    a.isPlaceholder = false → b.isPlaceholder = false → ¬ a.span.Meets b.span

/-! ## The children of a node -/

section Children

variable {kind : NodeKind} {span : Span} {previous solid : Option Span} {children : List Node}

/-- What the check of the remaining children asks for, without regard to neighbours: `previous` is
the span of the child in front of them, and `solid` that of the last one that is no placeholder. -/
structure Follow (span : Span) (previous solid : Option Span) (children : List Node) : Prop where
  inside : ∀ child ∈ children, span.contains child.span = true
  ordered : children.Pairwise fun a b => a.start ≤ b.start
  apart : children.Pairwise fun a b =>
    a.isPlaceholder = false → b.isPlaceholder = false → a.span.disjoint b.span = true
  behind : ∀ other ∈ previous, ∀ child ∈ children, other.start ≤ child.start
  clear : ∀ other ∈ solid, ∀ child ∈ children, child.isPlaceholder = false →
    other.disjoint child.span = true

theorem follow_nil : Follow span previous solid [] where
  inside := List.forall_mem_nil _
  ordered := .nil
  apart := .nil
  behind _ _ := List.forall_mem_nil _
  clear _ _ := List.forall_mem_nil _

/-- The children behind the first one follow it. What they are compared with is the first one, or
else what the first one was compared with. -/
theorem follow_cons_iff {first : Node} {rest : List Node}
    (ho : ∀ child ∈ first :: rest, child.span.Ordered)
    (hsolid : ∀ other ∈ solid, other.Ordered ∧ ∃ before ∈ previous, other.start ≤ before.start) :
    Follow span previous solid (first :: rest) ↔
      (span.contains first.span = true ∧ (∀ other ∈ previous, other.start ≤ first.start) ∧
        (first.isPlaceholder = false → ∀ other ∈ solid, other.disjoint first.span = true)) ∧
      Follow span (some first.span) (if first.isPlaceholder then solid else some first.span)
        rest := by
  obtain ⟨hfirst, hrest⟩ := List.forall_mem_cons.1 ho
  constructor
  · intro h
    obtain ⟨hinside, hinsides⟩ := List.forall_mem_cons.1 h.inside
    obtain ⟨hordered, horders⟩ := List.pairwise_cons.1 h.ordered
    obtain ⟨hapart, haparts⟩ := List.pairwise_cons.1 h.apart
    have hclear : ∀ other ∈ solid, first.isPlaceholder = false →
        other.disjoint first.span = true :=
      fun other hother => h.clear other hother first List.mem_cons_self
    refine ⟨⟨hinside, ?_, fun hkind other hother => hclear other hother hkind⟩, ?_⟩
    · exact fun other hother => h.behind other hother first List.mem_cons_self
    · constructor
      · exact hinsides
      · exact horders
      · exact haparts
      · rintro other ⟨⟩
        exact hordered
      · intro other hother child hchild hkind
        cases hplaceholder : first.isPlaceholder with
        | true =>
          rw [hplaceholder, if_pos rfl] at hother
          exact h.clear other hother child (List.mem_cons_of_mem _ hchild) hkind
        | false =>
          rw [hplaceholder, if_neg Bool.false_ne_true] at hother
          cases hother
          exact hapart child hchild hplaceholder hkind
  · rintro ⟨⟨hinside, hprevious, hclear⟩, h⟩
    have hordered : ∀ child ∈ rest, first.start ≤ child.start := h.behind first.span rfl
    constructor
    · exact List.forall_mem_cons.2 ⟨hinside, h.inside⟩
    · exact List.pairwise_cons.2 ⟨hordered, h.ordered⟩
    · refine List.pairwise_cons.2 ⟨?_, h.apart⟩
      intro child hchild hplaceholder hkind
      rw [hplaceholder, if_neg Bool.false_ne_true] at h
      exact h.clear first.span rfl child hchild hkind
    · intro other hother
      refine List.forall_mem_cons.2 ⟨hprevious other hother, ?_⟩
      exact fun child hchild => (hprevious other hother).trans (hordered child hchild)
    · intro other hother
      refine List.forall_mem_cons.2 ⟨fun hkind => hclear hkind other hother, ?_⟩
      intro child hchild hkind
      cases hplaceholder : first.isPlaceholder with
      | true =>
        rw [hplaceholder, if_pos rfl] at h
        exact h.clear other hother child hchild hkind
      | false =>
        -- the first child lies behind the other one and in front of the later child
        obtain ⟨-, before, hbefore, hstart⟩ := hsolid other hother
        have hle : other.start ≤ first.start := hstart.trans (hprevious before hbefore)
        have hlt : other.last < first.start :=
          (Span.disjoint_iff_lt hfirst hle).1 (hclear hplaceholder other hother)
        have hbehind := hordered child hchild
        have hchild : child.span.Ordered := hrest child hchild
        exact (Span.disjoint_iff_lt hchild (hle.trans hbehind)).2 (hlt.trans_le hbehind)

/-- The check of the remaining children, by induction on them. -/
theorem checkChildren_eq_ok_iff (ho : ∀ child ∈ children, child.span.Ordered)
    (hsolid : ∀ other ∈ solid, other.Ordered ∧ ∃ before ∈ previous, other.start ≤ before.start) :
    checkChildren kind span previous solid children = .ok () ↔
      Follow span previous solid children ∧ ∀ child ∈ children, child.check = .ok () := by
  induction children generalizing previous solid with
  | nil => exact iff_of_true rfl ⟨follow_nil, List.forall_mem_nil _⟩
  | cons first rest ih =>
    rw [checkChildren_cons_eq_ok_iff, follow_cons_iff ho hsolid, checkChild_eq_ok_iff,
      List.forall_mem_cons]
    obtain ⟨hfirst, hrest⟩ := List.forall_mem_cons.1 ho
    by_cases hprevious : ∀ other ∈ previous, other.start ≤ first.start
    · -- the invariant on the remembered children holds again behind the first child
      have hnext : ∀ other ∈ (if first.isPlaceholder then solid else some first.span),
          other.Ordered ∧ ∃ before ∈ some first.span, other.start ≤ before.start := by
        intro other hother
        cases hplaceholder : first.isPlaceholder with
        | true =>
          rw [hplaceholder, if_pos rfl] at hother
          obtain ⟨hordered, before, hbefore, hstart⟩ := hsolid other hother
          exact ⟨hordered, first.span, rfl, hstart.trans (hprevious before hbefore)⟩
        | false =>
          rw [hplaceholder, if_neg Bool.false_ne_true] at hother
          cases hother
          exact ⟨hfirst, first.span, rfl, Nat.le_refl _⟩
      rw [ih hrest hnext]
      simp only [isPlaceholder, start]
      tauto
    · constructor
      · intro h
        exact absurd h.1.2.1 hprevious
      · intro h
        exact absurd h.1.1.2.1 hprevious

end Children

/-! ## Whole trees -/

theorem wellLaid_iff {node : Node} (ho : ∀ child ∈ node.children, child.span.Ordered) :
    node.WellLaid ↔ checkSelf node.kind node.span node.children.length = .ok () ∧
      Follow node.span none none node.children := by
  -- The check compares the ends of spans. For spans with ends in order that is what it is not to
  -- meet.
  have hapart : (node.children.Pairwise fun a b =>
        a.isPlaceholder = false → b.isPlaceholder = false → ¬ a.span.Meets b.span) ↔
      node.children.Pairwise fun a b =>
        a.isPlaceholder = false → b.isPlaceholder = false → a.span.disjoint b.span = true := by
    refine List.Pairwise.iff_of_mem fun {a b} ha hb => ?_
    rw [Span.not_meets_iff (ho a ha) (ho b hb)]
  rw [checkSelf_eq_ok_iff]
  constructor
  · intro h
    refine ⟨⟨h.placeholder, h.arity, fun symbol hsymbol => ?_⟩, ?_⟩
    · exact Span.contains_iff.2 (h.symbols symbol hsymbol)
    · constructor
      · exact fun child hchild => Span.contains_iff.2 (h.children child hchild)
      · exact h.ordered
      · exact hapart.1 h.apart
      · rintro other ⟨⟩
      · rintro other ⟨⟩
  · rintro ⟨⟨hplaceholder, harity, hsymbols⟩, h⟩
    constructor
    · exact hplaceholder
    · exact harity
    · exact fun symbol hsymbol => Span.contains_iff.1 (hsymbols symbol hsymbol)
    · exact fun child hchild => Span.contains_iff.1 (h.inside child hchild)
    · exact h.ordered
    · exact hapart.2 h.apart

mutual

theorem check_eq_ok_iff_wellLaid : (node : Node) →
    (∀ below ∈ node.preorder, below.span.Ordered) →
    (node.check = .ok () ↔ ∀ below ∈ node.preorder, below.WellLaid)
  | ⟨kind, span, children, flag⟩, ho => by
    obtain ⟨-, hbelow⟩ := List.forall_mem_cons.1 ho
    have hchildren : ∀ child ∈ children, child.span.Ordered := fun child hchild =>
      hbelow child (mem_preorderList.2 ⟨child, hchild, mem_preorder.2 (.inl rfl)⟩)
    have hrest := check_list_eq_ok_iff_wellLaid children hbelow
    have hself : WellLaid ⟨kind, span, children, flag⟩ ↔ _ := wellLaid_iff hchildren
    have hnone : ∀ other ∈ (none : Option Span),
        other.Ordered ∧ ∃ before ∈ (none : Option Span), other.start ≤ before.start := by
      rintro other ⟨⟩
    rw [check_eq_ok_iff, checkChildren_eq_ok_iff hchildren hnone, ← and_assoc, ← hself, hrest]
    exact List.forall_mem_cons.symm

theorem check_list_eq_ok_iff_wellLaid : (nodes : List Node) →
    (∀ below ∈ preorderList nodes, below.span.Ordered) →
    ((∀ node ∈ nodes, node.check = .ok ()) ↔ ∀ below ∈ preorderList nodes, below.WellLaid)
  | [], _ => iff_of_true (List.forall_mem_nil _) (List.forall_mem_nil _)
  | node :: rest, ho => by
    obtain ⟨hnode, hrest⟩ := List.forall_mem_append.1 ho
    rw [List.forall_mem_cons, check_eq_ok_iff_wellLaid node hnode,
      check_list_eq_ok_iff_wellLaid rest hrest]
    exact List.forall_mem_append.symm

end

/-! ## Paths -/

/-- The node at the end of a path that leads from a node to a child, and on from there. -/
def at? (node : Node) : List Nat → Option Node
  | [] => some node
  | index :: path => node.children[index]?.bind (·.at? path)

theorem mem_preorder_of_at? {node below : Node} {path : List Nat}
    (h : node.at? path = some below) : below ∈ node.preorder := by
  induction path generalizing node with
  | nil =>
    cases h
    exact mem_preorder.2 (.inl rfl)
  | cons index path ih =>
    obtain ⟨child, hchild, hpath⟩ := Option.bind_eq_some_iff.1 h
    exact mem_preorder.2 (.inr ⟨child, List.mem_of_getElem? hchild, ih hpath⟩)

/-- What a path that is not empty leads to lies within the child that it begins with. A placeholder
is the only node below itself. -/
theorem below_child {child below : Node} {path : List Nat}
    (hlaid : ∀ node ∈ child.preorder, node.WellLaid)
    (hbare : child.isPlaceholder = true → child.children = [])
    (h : child.at? path = some below) (hsolid : below.isPlaceholder = false) :
    child.isPlaceholder = false ∧ child.span.contains below.span = true := by
  constructor
  · cases path with
    | nil =>
      cases h
      exact hsolid
    | cons index path =>
      obtain ⟨next, hnext, -⟩ := Option.bind_eq_some_iff.1 h
      cases hplaceholder : child.isPlaceholder with
      | false => rfl
      | true =>
        rw [hbare hplaceholder] at hnext
        cases hnext
  · have hnested : child.Nested := by
      intro node hnode other hother
      exact Span.contains_iff.2 ((hlaid node hnode).children other hother)
    exact (around_preorder child hnested below (mem_preorder_of_at? h)).1

/-- In a tree that is well laid out, nodes of which none lies below the other share no offset. The
induction is on the two paths; they part at some node, and there below two of its children. -/
theorem not_meets_of_paths {root a b : Node} {path path' : List Nat}
    (hlaid : ∀ node ∈ root.preorder, node.WellLaid)
    (hbare : ∀ node ∈ root.preorder, node.isPlaceholder = true → node.children = [])
    (ha : root.at? path = some a) (hb : root.at? path' = some b) (hab : ¬ path <+: path')
    (hba : ¬ path' <+: path) (hsa : a.isPlaceholder = false) (hsb : b.isPlaceholder = false) :
    ¬ a.span.Meets b.span := by
  induction path generalizing root path' with
  | nil => exact absurd List.nil_prefix hab
  | cons i path ih =>
    cases path' with
    | nil => exact absurd List.nil_prefix hba
    | cons j path' =>
      obtain ⟨child, hchild, hpath⟩ := Option.bind_eq_some_iff.1 ha
      obtain ⟨child', hchild', hpath'⟩ := Option.bind_eq_some_iff.1 hb
      have hin : ∀ node ∈ child.preorder, node ∈ root.preorder := fun node hnode =>
        mem_preorder.2 (.inr ⟨child, List.mem_of_getElem? hchild, hnode⟩)
      have hin' : ∀ node ∈ child'.preorder, node ∈ root.preorder := fun node hnode =>
        mem_preorder.2 (.inr ⟨child', List.mem_of_getElem? hchild', hnode⟩)
      have hself : child ∈ child.preorder := mem_preorder.2 (.inl rfl)
      have hself' : child' ∈ child'.preorder := mem_preorder.2 (.inl rfl)
      by_cases hij : i = j
      · -- both paths begin with the same child
        subst hij
        obtain rfl : child = child' := Option.some.inj (hchild.symm.trans hchild')
        refine ih (fun node hnode => hlaid node (hin node hnode))
          (fun node hnode => hbare node (hin node hnode)) hpath hpath' ?_ ?_
        · exact fun h => hab ((List.prefix_cons_inj i).2 h)
        · exact fun h => hba ((List.prefix_cons_inj i).2 h)
      · -- the two children are apart, and so is what lies within them
        obtain ⟨hsolid, hinside⟩ := below_child (fun node hnode => hlaid node (hin node hnode))
          (hbare child (hin child hself)) hpath hsa
        obtain ⟨hsolid', hinside'⟩ := below_child (fun node hnode => hlaid node (hin' node hnode))
          (hbare child' (hin' child' hself')) hpath' hsb
        have hapart := (hlaid root (mem_preorder.2 (.inl rfl))).apart
        rw [List.pairwise_iff_getElem] at hapart
        obtain ⟨hi, rfl⟩ := List.getElem?_eq_some_iff.1 hchild
        obtain ⟨hj, rfl⟩ := List.getElem?_eq_some_iff.1 hchild'
        intro hmeets
        rcases Nat.lt_or_gt_of_ne hij with hlt | hlt
        · exact hapart i j hi hj hlt hsolid hsolid' (hmeets.mono hinside hinside')
        · exact hapart j i hj hi hlt hsolid' hsolid (hmeets.symm.mono hinside' hinside)

/-- The check decides the invariants of a tree in which every span has its ends in order: a tree
passes it just if each of its nodes is well laid out. If placeholders have nothing below them, any
two nodes of a tree that passes, placeholders aside, share no offset unless one lies below the
other. -/
theorem check_decides_layout (root : Node) (ho : ∀ node ∈ root.preorder, node.span.Ordered) :
    (root.check = .ok () ↔ ∀ node ∈ root.preorder, node.WellLaid) ∧
      (root.check = .ok () →
        (∀ node ∈ root.preorder, node.isPlaceholder = true → node.children = []) →
        ∀ (path path' : List Nat) (a b : Node), root.at? path = some a → root.at? path' = some b →
          ¬ path <+: path' → ¬ path' <+: path → a.isPlaceholder = false →
          b.isPlaceholder = false → ¬ a.span.Meets b.span) := by
  have hdecides := check_eq_ok_iff_wellLaid root ho
  refine ⟨hdecides, ?_⟩
  intro hcheck hbare path path' a b ha hb hab hba hsa hsb
  exact not_meets_of_paths (hdecides.1 hcheck) hbare ha hb hab hba hsa hsb

/-- A statement of two parts, with a placeholder between them that touches the first. -/
def sampleTree : Node :=
  .branch .root ⟨0, 9⟩ [.branch .group ⟨0, 4⟩ [.leaf .invoke ⟨1, 3⟩], .empty 4,
    .leaf .invoke ⟨6, 9⟩]

/-- The tree passes the check. The call in the group and the call behind the placeholder are apart,
though nothing compares them. -/
theorem layout_of_sampleTree :
    (∀ node ∈ sampleTree.preorder, node.span.Ordered) ∧ sampleTree.check = .ok () ∧
      (∀ node ∈ sampleTree.preorder, node.isPlaceholder = true → node.children = []) ∧
      sampleTree.at? [0, 0] = some (.leaf .invoke ⟨1, 3⟩) ∧
      sampleTree.at? [2] = some (.leaf .invoke ⟨6, 9⟩) ∧
      (∀ node ∈ sampleTree.preorder, node.WellLaid) ∧ ¬ Span.Meets ⟨1, 3⟩ ⟨6, 9⟩ := by
  have ho : ∀ node ∈ sampleTree.preorder, node.span.Ordered := by decide
  have hcheck : sampleTree.check = .ok () := rfl
  have hbare : ∀ node ∈ sampleTree.preorder, node.isPlaceholder = true → node.children = [] := by
    simp [sampleTree, preorder, preorderList, branch, leaf, empty, isPlaceholder,
      NodeKind.isPlaceholder]
  have ha : sampleTree.at? [0, 0] = some (.leaf .invoke ⟨1, 3⟩) := rfl
  have hb : sampleTree.at? [2] = some (.leaf .invoke ⟨6, 9⟩) := rfl
  obtain ⟨hdecides, hapart⟩ := check_decides_layout sampleTree ho
  refine ⟨ho, hcheck, hbare, ha, hb, hdecides.1 hcheck, ?_⟩
  exact hapart hcheck hbare [0, 0] [2] _ _ ha hb (by decide) (by decide) rfl rfl

end Node

end Concretion
