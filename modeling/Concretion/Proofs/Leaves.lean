import Concretion.Proofs.Growth.Operators
import Concretion.Proofs.Plain
import Mathlib.Data.List.Forall2

/-!
# The leaves of concrete trees

Identifiers and literals without parts are the leaves of a concrete tree, too. This module compares
them with those of an abstract tree.

- `Leaf.IsAt`: the mark that a leaf leaves in a concrete tree, its kind with its symbol, and its
  span.
- `Node.marks`, `marksOf`: the marks in concrete trees, in their order.
- `Shows`: marks are those of leaves, one by one.
- `Adds`, `AddsNode`, `AddsOptional`: computations that add the marks of the given leaves to those
  that are there.
-/

namespace Concretion

open Recover

/-- Identifiers and literals without parts. -/
def NodeKind.isLeaf : NodeKind → Bool
  | identifier _ | number _ | string _ | regex _ | trueLiteral _ | falseLiteral _ | nullLiteral _ =>
    true
  | _ => false

theorem NodeKind.isLeaf_of_isVar {kind : NodeKind} (h : kind.isVar = true) :
    kind.isLeaf = false := by
  cases kind <;> first | rfl | cases h

theorem NodeKind.isLeaf_of_isExport {kind : NodeKind} (h : kind.isExport = true) :
    kind.isLeaf = false := by
  cases kind <;> first | rfl | cases h

namespace Leaf

/-- The kind of a literal whose value is the text at its range. -/
def Verbatim (source : Source) (range : Range) (token : TokenKind) (kind : Symbol → NodeKind)
    (mark : NodeKind × Span) : Prop :=
  source.rangeSpan range.start range.finish = .ok mark.2 ∧
    mark.1 = kind ⟨token, mark.2, (source.slice mark.2.start (mark.2.last + 1)).getD ""⟩

/-- Is this the mark of the leaf? A number may take up less than its range, and a string has its
quotes around its range. -/
def IsAt (source : Source) (leaf : Leaf) (mark : NodeKind × Span) : Prop :=
  match leaf with
  | name range text => source.rangeSpan range.start range.finish = .ok mark.2 ∧
      mark.1 = .identifier ⟨.identifier, mark.2, text⟩
  | literal range .number => (∃ full, source.rangeSpan range.start range.finish = .ok full ∧
      full.start ≤ mark.2.start ∧ mark.2.last ≤ full.last) ∧
      mark.1 = .number
        ⟨.number, mark.2, (source.slice mark.2.start (mark.2.last + 1)).getD ""⟩
  | literal range (.string value) => range.start ≠ 0 ∧
      source.rangeSpan (range.start - 1) (range.finish + 1) = .ok mark.2 ∧
      ∃ quote ∈ ["'", "\""], mark.1 = .string ⟨.string, mark.2, quote ++ value ++ quote⟩
  | literal range (.boolean true) => Verbatim source range .trueLiteral .trueLiteral mark
  | literal range (.boolean false) => Verbatim source range .falseLiteral .falseLiteral mark
  | literal range .null => Verbatim source range .nullLiteral .nullLiteral mark
  | literal range .regex => Verbatim source range .regex .regex mark

end Leaf

/-! ## Marks -/

/-- The marks that leaves have left in a tree. -/
def Node.marks (node : Node) : List (NodeKind × Span) :=
  (node.preorder.filter (·.kind.isLeaf)).map fun part => (part.kind, part.span)

/-- The marks that leaves have left in several trees. -/
def marksOf (nodes : List Node) : List (NodeKind × Span) := nodes.flatMap Node.marks

theorem marksOf_append (nodes others : List Node) :
    marksOf (nodes ++ others) = marksOf nodes ++ marksOf others := List.flatMap_append

@[simp] theorem marksOf_singleton (node : Node) : marksOf [node] = node.marks := by
  rw [marksOf, List.flatMap_cons, List.flatMap_nil, List.append_nil]

theorem marksOf_cons (node : Node) (nodes : List Node) :
    marksOf (node :: nodes) = node.marks ++ marksOf nodes := rfl

theorem marksOf_concat (nodes : List Node) (node : Node) :
    marksOf (nodes ++ [node]) = marksOf nodes ++ node.marks := by
  rw [marksOf_append, marksOf_singleton]

namespace Node

/-- The marks of a node are its own and those of its children. -/
theorem marks_eq (node : Node) : node.marks =
    (if node.kind.isLeaf then [(node.kind, node.span)] else []) ++ marksOf node.children := by
  have hbelow : ((preorderList node.children).filter (·.kind.isLeaf)).map
      (fun part => (part.kind, part.span)) = marksOf node.children := by
    rw [preorderList_eq, List.filter_flatMap, List.map_flatMap]
    rfl
  obtain ⟨kind, span, children, flag⟩ := node
  rw [marks, preorder, ← hbelow, List.filter_cons]
  split <;> rfl

theorem marks_of_kind {node : Node} (h : node.kind.isLeaf = false) :
    node.marks = marksOf node.children := by
  rw [marks_eq, h]
  rfl

theorem marks_mk {kind : NodeKind} (h : kind.isLeaf = false) (span : Span) (children : List Node)
    (flag : Bool) : marks ⟨kind, span, children, flag⟩ = marksOf children := marks_of_kind h

/-- Whose the semicolon is makes no difference. -/
@[simp] theorem marks_flag (node : Node) (flag : Bool) :
    { node with ownsSemicolon := flag }.marks = node.marks := by
  rw [marks_eq, marks_eq]

/-- Placeholders show nothing. -/
theorem marks_placeholder {node : Node} (h : node.isPlaceholder = true)
    (hbare : node.children = []) :
    node.marks = [] := by
  have hkind : node.kind.isLeaf = false := by
    rw [isPlaceholder] at h
    cases hnode : node.kind <;> first | rfl | (rw [hnode] at h; cases h)
  rw [marks_of_kind hkind, hbare]
  rfl

theorem marks_grouped (node : Node) : node.grouped.marks = node.marks :=
  (marks_of_kind rfl).trans (marksOf_singleton node)

/-- Parentheses make no difference. -/
@[simp] theorem marks_beside (node : Node) (inner : Option Operator) (outer : Operator)
    (side : Operator.Side) : (node.beside inner outer side).marks = node.marks := by
  rw [beside]
  split
  · exact node.marks_grouped
  · rfl

@[simp] theorem marks_asObject (node : Node) (inner : Option Operator) :
    (node.asObject inner).marks = node.marks := by
  rw [asObject]
  split
  · exact node.marks_grouped
  · rfl

theorem IsUnary.marks {made operand : Node} {operator : Operator}
    (h : made.IsUnary operator operand) : made.marks = operand.marks := by
  obtain ⟨spelling, form, symbol, -, -, hkind, hchildren⟩ := h
  have hleaf : made.kind.isLeaf = false := by
    rw [hkind]
    cases form <;> rfl
  rw [marks_of_kind hleaf]
  rcases hchildren with hchildren | ⟨-, hinvoke, hchildren⟩
  · rw [hchildren, marksOf_singleton]
  · rw [hchildren, marks_of_kind (by rw [hinvoke]; rfl)]

theorem IsBinary.marks {made left right : Node} {operator : Operator}
    (h : made.IsBinary operator left right) : made.marks = left.marks ++ right.marks := by
  obtain ⟨spelling, form, symbol, -, -, hkind, hchildren⟩ := h
  have hleaf : made.kind.isLeaf = false := by
    rw [hkind]
    cases form <;> rfl
  rw [marks_of_kind hleaf, hchildren, marksOf_cons, marksOf_singleton]

theorem IsConditional.marks {made test consequent alternate : Node}
    (h : made.IsConditional test consequent alternate) :
    made.marks = test.marks ++ (consequent.marks ++ alternate.marks) := by
  obtain ⟨question, colon, -, -, hkind, hchildren⟩ := h
  rw [marks_of_kind (by rw [hkind]; rfl), hchildren, marksOf_cons, marksOf_cons, marksOf_singleton]

end Node

/-! ## Marks of leaves -/

/-- The marks are those of the leaves, one by one. -/
abbrev Shows (source : Source) (leaves : List Leaf) (marks : List (NodeKind × Span)) : Prop :=
  List.Forall₂ (Leaf.IsAt source) leaves marks

/-- The node shows the leaves. -/
abbrev Node.Shows (node : Node) (source : Source) (leaves : List Leaf) : Prop :=
  Concretion.Shows source leaves node.marks

theorem Shows.append {source : Source} {leaves others : List Leaf}
    {marks further : List (NodeKind × Span)} (h : Shows source leaves marks)
    (ho : Shows source others further) : Shows source (leaves ++ others) (marks ++ further) :=
  List.rel_append h ho

/-- What shows the leaves below a node that is no leaf itself is shown by the node. -/
theorem Node.shows_of_children {node : Node} {source : Source} {leaves : List Leaf}
    (hkind : node.kind.isLeaf = false)
    (h : Concretion.Shows source leaves (marksOf node.children)) :
    node.Shows source leaves := by
  rw [Node.Shows, marks_of_kind hkind]
  exact h

namespace Recover

/-- The computation leaves further marks behind, which are those of the leaves. -/
def Adds (scope : Scope) (leaves : List Leaf) (action : Recover Unit) : Prop :=
  ∀ children, Gives scope children action fun _ after =>
    ∃ marks, marksOf after = marksOf children ++ marks ∧ Shows scope.source leaves marks

/-- The computation appends one node, which shows the leaves. -/
abbrev AddsNode (scope : Scope) (leaves : List Leaf) (action : Recover Unit) : Prop :=
  Appends scope action (·.Shows scope.source leaves)

/-- An expression appends one node, which shows the leaves. If it is absent, there are none. -/
def AddsOptional (scope : Scope) (leaves : List Leaf) (fragment : Option Fragment) : Prop :=
  match fragment with
  | some part => AddsNode scope leaves part.build
  | none => leaves = []

variable {α : Type} {scope : Scope} {leaves others : List Leaf} {action : Recover Unit}

theorem Appends.adds (h : Appends scope action (·.Shows scope.source leaves)) :
    Adds scope leaves action := by
  refine fun children => (h children).mono ?_
  rintro _ _ ⟨node, rfl, hshows⟩
  exact ⟨node.marks, marksOf_concat children node, hshows⟩

/-- A node that is no leaf shows what is below it. -/
theorem Gives.shownWithin {node : Node}
    (h : Gives scope [] action fun _ after => Shows scope.source leaves (marksOf after))
    (hkind : node.kind.isLeaf = false) (hbare : node.children = []) :
    Looks scope (within node action) (·.Shows scope.source leaves) := by
  refine (Looks.within (hbare ▸ h)).mono fun made ⟨hmade, hshows⟩ => ?_
  exact Node.shows_of_children (hmade ▸ hkind) hshows

namespace Adds

theorem pure : Adds scope [] (Pure.pure ()) :=
  fun _ => .pure ⟨[], (List.append_nil _).symm, .nil⟩

/-- Computations that leave the children alone show nothing. -/
theorem ofLooks {found : Unit → Prop} (h : Looks scope action found) : Adds scope [] action := by
  intro children
  refine (h children).mono ?_
  rintro _ _ ⟨rfl, -⟩
  exact ⟨[], (List.append_nil _).symm, .nil⟩

theorem after {action : Recover α} {found : α → Prop} {next : α → Recover Unit}
    (h : Looks scope action found) (hn : ∀ value, found value → Adds scope leaves (next value)) :
    Adds scope leaves (action >>= next) :=
  fun children => h.andThen fun value hfound => hn value hfound children

theorem andThen {next : Recover Unit} (h : Adds scope leaves action)
    (hn : Adds scope others next) : Adds scope (leaves ++ others) (action >>= fun _ => next) := by
  refine fun children => (h children).bind fun _ between ⟨marks, hmarks, hshows⟩ => ?_
  refine (hn between).mono fun _ after ⟨further, hfurther, hshows'⟩ => ?_
  refine ⟨marks ++ further, ?_, hshows.append hshows'⟩
  rw [hfurther, hmarks, List.append_assoc]

/-- A computation that leaves no further marks, in front of another one. -/
theorem silently {next : Recover Unit} (h : Adds scope [] action)
    (hn : Adds scope leaves next) : Adds scope leaves (action >>= fun _ => next) :=
  h.andThen hn

/-- A computation that leaves no further marks, behind another one. -/
theorem thenSilently {next : Recover Unit} (h : Adds scope leaves action)
    (hn : Adds scope [] next) : Adds scope leaves (action >>= fun _ => next) := by
  rw [← List.append_nil leaves]
  exact h.andThen hn

theorem forM {γ : Type} {step : γ → Recover Unit} {shown : γ → List Leaf} {list : List γ}
    (h : ∀ item ∈ list, Adds scope (shown item) (step item)) :
    Adds scope (list.flatMap shown) (list.forM step) := by
  induction list with
  | nil => exact pure
  | cons item rest ih =>
    show Adds scope (shown item ++ rest.flatMap shown) (step item >>= fun _ => rest.forM step)
    exact (h item List.mem_cons_self).andThen
      (ih fun other hmem => h other (List.mem_cons_of_mem _ hmem))

/-- With no children at first, the children are what shows the leaves. -/
theorem below (h : Adds scope leaves action) :
    Gives scope [] action fun _ after => Shows scope.source leaves (marksOf after) := by
  refine (h []).mono fun _ after ⟨marks, hmarks, hshows⟩ => ?_
  rw [hmarks]
  exact hshows

theorem within {node : Node} (h : Adds scope leaves action) (hkind : node.kind.isLeaf = false)
    (hbare : node.children = []) :
    Looks scope (within node action) (·.Shows scope.source leaves) :=
  h.below.shownWithin hkind hbare

theorem enter {node : Node} (h : Adds scope leaves action) (hkind : node.kind.isLeaf = false)
    (hbare : node.children = []) : AddsNode scope leaves (enter node action) :=
  .attached (h.within hkind hbare)

/-- Placeholders and nodes without children leave no marks. -/
theorem attachBare {node : Node} (hkind : node.kind.isLeaf = false) (hbare : node.children = []) :
    AddsNode scope [] (attach node) := by
  refine .attach ?_
  rw [Node.Shows, Node.marks_of_kind hkind, hbare]
  exact .nil

theorem expectChildren (count : Nat) : Adds scope [] (expectChildren count) := by
  refine fun children => (Gives.expectChildren count).mono fun _ after ⟨hafter, _⟩ => ?_
  exact ⟨[], by rw [hafter, List.append_nil], .nil⟩

end Adds

theorem AddsOptional.adds {fragment : Option Fragment} (h : AddsOptional scope leaves fragment) :
    Adds scope leaves (Fragment.buildOptional fragment) := by
  cases fragment with
  | some part => exact Appends.adds h
  | none =>
    cases h
    exact .pure

end Recover

end Concretion
