import Mathlib
import Concretion.Proofs.Nesting.Tree

/-!
# Nodes lie around what is below them

The check of a tree asks that every node lies around its children. A recovery that is not followed
by a check gives such a tree all the same, from whatever abstract tree it starts: no offsets in it
are trusted, and its parts may be in any order. There are two places where a node is made from
offsets that cannot be told to fit. Both are out of the way if rest parameters are more than nothing
and names that are imported are free of quotes.

- `nodes_contain_what_is_below`: the nodes of a recovered tree lie around all nodes below them.
-/

namespace Concretion

open Recover

/-- All children of the root are nested. -/
theorem Program.nested_of_ok {program : Program} {text : String} {settings : Settings}
    {concrete : Concrete} (hrest : program.body.meets .written = true)
    (hnames : ∀ info ∈ program.info, ∀ entry ∈ info.imports, entry.isUnquoted = true)
    (h : (program.concretise text settings).result = .ok concrete) :
    ∀ child ∈ concrete.root.children, child.Nested := by
  obtain ⟨later, hrun, -, rfl⟩ := program.ok_of_concretise h
  have hinitial : (Session.initial (.of text program.info settings) program.uri).Nested := by
    refine ⟨⟨List.forall_mem_nil _, List.forall_mem_nil _⟩, ?_⟩
    rintro node ⟨⟩
  obtain ⟨hlater, -⟩ := program.nests_recover _ hrest hnames _ hinitial () later hrun
  exact hlater.stack.root

/-- Every node of a recovered tree other than its root lies around its children, and so around all
nodes below it, whether or not the tree is checked. -/
theorem nodes_contain_what_is_below (program : Program) (text : String) (settings : Settings)
    (hrest : program.body.meets .written = true)
    (hnames : ∀ info ∈ program.info, ∀ entry ∈ info.imports, entry.isUnquoted = true) :
    match (program.concretise text settings).result with
    | .ok concrete => ∀ node ∈ Node.preorderList concrete.root.children,
        (∀ child ∈ node.children, node.span.contains child.span = true) ∧
          ∀ below ∈ node.preorder, node.span.contains below.span = true
    | .error _ => True := by
  split
  · next concrete hresult =>
    intro node hnode
    obtain ⟨top, htop, hmem⟩ := Node.mem_preorderList.1 hnode
    have hnested := (Node.around_preorder top (program.nested_of_ok hrest hnames hresult top htop)
      node hmem).2
    constructor
    · exact fun child hchild => (Node.nested_iff.1 hnested child hchild).1
    · exact fun below hbelow => (Node.around_preorder node hnested below hbelow).1
  · trivial

/-- A module that imports a name, exports two variables in a single statement, and has an arrow
function with a rest parameter. -/
def Program.sampleModule : Program :=
  ⟨"file:///test.js", ⟨⟨0, 50⟩, .synthetic,
    [.binding ⟨⟨31, 32⟩, ⟨⟨31, 32⟩, "b", false, false⟩, none, .var, false⟩,
      .binding ⟨⟨34, 35⟩, ⟨⟨34, 35⟩, "c", false, false⟩, none, .var, false⟩,
      .expression ⟨38, 50⟩ (.functionDef ⟨⟨38, 49⟩, ⟨⟨38, 38⟩, "", false, false⟩, .arrow,
        [⟨⟨42, 43⟩, "d", true, false⟩], ⟨⟨48, 49⟩, .synthetic,
          [.returnValue ⟨48, 49⟩ (some (.ident ⟨⟨48, 49⟩, "d", false, false⟩)) true]⟩,
        true, false, false, false⟩)]⟩,
    some ⟨[⟨"m", "a", none⟩], [⟨some "b", some "b", none⟩, ⟨some "c", some "c", none⟩], []⟩⟩

/-- Nothing is missed in the text of the module, and its tree is not checked. The two variables are
in one statement, which ends with the second, and the rest element lies around its parameter. -/
theorem containment_in_sampleModule :
    let program := Program.sampleModule
    let text := "import {a} from 'm'; export var b, c; (...d) => d;"
    let result := (program.concretise text ⟨.skipTrivia, true, false⟩).result
    program.body.meets .written = true ∧
      (∀ info ∈ program.info, ∀ entry ∈ info.imports, entry.isUnquoted = true) ∧
      result.toOption.map (·.warnings.length) = some 0 ∧
      result.toOption.map (fun concrete => (Node.preorderList concrete.root.children).map
          fun node => (node.kind.name, node.span)) =
        some [("Import", ⟨0, 18⟩), ("ImportSpecifier", ⟨8, 8⟩), ("Identifier", ⟨8, 8⟩),
          ("Export", ⟨21, 34⟩), ("Var", ⟨28, 34⟩),
          ("Declaration", ⟨31, 31⟩), ("Identifier", ⟨31, 31⟩), ("Empty", ⟨31, 31⟩),
          ("Declaration", ⟨34, 34⟩), ("Identifier", ⟨34, 34⟩), ("Empty", ⟨34, 34⟩),
          ("ArrowFunction", ⟨38, 48⟩), ("Parameters", ⟨38, 43⟩), ("RestElement", ⟨39, 42⟩),
          ("Identifier", ⟨42, 42⟩), ("Identifier", ⟨48, 48⟩)] ∧
      match result with
      | .ok concrete => ∀ node ∈ Node.preorderList concrete.root.children,
          (∀ child ∈ node.children, node.span.contains child.span = true) ∧
            ∀ below ∈ node.preorder, node.span.contains below.span = true
      | .error _ => True := by
  intro program text result
  have hrest : program.body.meets .written = true := by decide +kernel
  have hnames : ∀ info ∈ program.info, ∀ entry ∈ info.imports, entry.isUnquoted = true := by
    rintro info ⟨⟩
    decide +kernel
  refine ⟨hrest, hnames, by decide +kernel, ?_,
    nodes_contain_what_is_below program text _ hrest hnames⟩
  -- `decide` does not get through the sort that puts the import in front
  subst result text program
  cbv

end Concretion
