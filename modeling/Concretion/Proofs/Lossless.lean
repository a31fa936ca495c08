import Concretion.Proofs.Inversion
import Concretion.Proofs.Leaves.Tree

/-!
# No leaf is lost

The rules do not visit the parts of a construct in the order of the text, put declarations back into
the headers of loops, keep nodes on a shelf, and leave out an identifier now and then. Still, a
program that is plain and no module has all of its leaves in its concrete tree, each once, in the
order of the text.

- `leaves_are_kept`: the leaves of a recovered tree are those of the program.
- `crowded_headers_lose_leaves`: loops may hold expressions that have no place in their headers.
-/

namespace Concretion

open Recover

/-- The identifiers and literals of the tree are the given leaves, one by one. -/
def Node.Keeps (node : Node) (source : Source) (leaves : List Leaf) : Prop :=
  List.Forall₂ (fun leaf part => leaf.IsAt source (part.kind, part.span)) leaves
    (node.preorder.filter (·.kind.isLeaf))

/-- Without metadata, the children of the root show the leaves of a plain program. -/
theorem Program.shown {program : Program} {text : String} {settings : Settings}
    {concrete : Concrete} (hinfo : program.info = none) (hplain : program.body.isPlain = true)
    (h : (program.concretise text settings).result = .ok concrete) :
    concrete.root.Shows (Source.ofString text settings.mode) program.body.leaves := by
  let scope := Scope.of text program.info settings
  obtain ⟨later, hrun, hopened, rfl⟩ := program.ok_of_concretise h
  have hadds : Adds scope program.body.leaves program.recover := by
    refine .after (.note _) fun _ _ => ?_
    rw [hinfo]
    exact (program.body.shown hplain).adds.thenSilently .pure
  obtain ⟨hgrown, marks, hmarks, hshows⟩ := hadds [] _ rfl rfl _ later hrun
  -- only the root is open, so the children are its own, and its kind is what it was at first
  have hroot : later.stack.root = { (Session.initial scope program.uri).stack.root with
      children := later.stack.children } := congrArg Stack.root hgrown.stack
  show later.stack.root.Shows scope.source program.body.leaves
  rw [hroot]
  refine Node.shows_of_children rfl ?_
  show Shows scope.source program.body.leaves (marksOf later.stack.children)
  rw [hmarks]
  exact hshows

/-- Whatever the text, the identifiers and literals of a recovered tree are those of the program,
one by one and in their order, if the program is plain and no module. -/
theorem leaves_are_kept (program : Program) (text : String) (settings : Settings)
    (hinfo : program.info = none) (hplain : program.body.isPlain = true) :
    match (program.concretise text settings).result with
    | .ok concrete =>
      concrete.root.Keeps (Source.ofString text settings.mode) program.body.leaves
    | .error _ => True := by
  split
  · next concrete hresult =>
    exact List.forall₂_map_right_iff.1 (program.shown hinfo hplain hresult)
  · trivial

/-- A counting loop that declares a variable, as in `for (var i = a; ; ) c;`. It may have an
initialisation besides. -/
def Program.countingLoop (init : Option Expr) : Program :=
  ⟨"file:///test.js", ⟨⟨0, 23⟩, .synthetic,
    [.binding ⟨⟨9, 14⟩, ⟨⟨9, 10⟩, "i", false, false⟩,
        some (.ident ⟨⟨13, 14⟩, "a", false, false⟩), .var, false⟩,
      .forLoop ⟨⟨0, 23⟩, .classic, init, none, none, ⟨⟨21, 23⟩, .synthetic,
        [.expression ⟨21, 23⟩ (.ident ⟨⟨21, 22⟩, "c", false, false⟩)]⟩⟩]⟩, none⟩

/-- The names of the declaration come before that in the body of the loop. -/
theorem leaves_of_countingLoop :
    let program := Program.countingLoop none
    let text := "for (var i = a; ;  ) c;"
    let result := (program.concretise text Settings.unforgiving).result
    program.body.leaves = [.name ⟨9, 10⟩ "i", .name ⟨13, 14⟩ "a", .name ⟨21, 22⟩ "c"] ∧
      result.toOption.map (·.root.marks.map Prod.snd) = some [⟨9, 9⟩, ⟨13, 13⟩, ⟨21, 21⟩] ∧
      match result with
      | .ok concrete => concrete.root.Keeps (Source.ofString text .skipTrivia) program.body.leaves
      | .error _ => True := by
  intro program text result
  exact ⟨by decide +kernel, by decide +kernel,
    leaves_are_kept program text Settings.unforgiving rfl (by decide +kernel)⟩

/-! ## Expressions without a place -/

/-- A loop over the keys of an object, as in `for (x in b) c;`. It may have a test besides. -/
def Program.rangingLoop (test : Option Expr) : Program :=
  ⟨"file:///test.js", ⟨⟨0, 18⟩, .synthetic,
    [.forLoop ⟨⟨0, 18⟩, .keys, some (.ident ⟨⟨5, 6⟩, "x", false, false⟩), test,
      some (.ident ⟨⟨13, 14⟩, "b", false, false⟩), ⟨⟨16, 18⟩, .synthetic,
        [.expression ⟨16, 18⟩ (.ident ⟨⟨16, 17⟩, "c", false, false⟩)]⟩⟩]⟩, none⟩

/-- A tree with too few identifiers and literals does not keep all leaves. -/
theorem not_keeps_of_length {program : Program} {text : String} {kept : Nat}
    (h : (program.concretise text Settings.unforgiving).result.toOption.map
      (·.root.marks.length) = some kept) (hless : kept < program.body.leaves.length) :
    ∃ concrete, (program.concretise text Settings.unforgiving).result = .ok concrete ∧
      ¬concrete.root.Keeps (Source.ofString text .skipTrivia) program.body.leaves := by
  cases hresult : (program.concretise text Settings.unforgiving).result with
  | error failure =>
    rw [hresult] at h
    cases h
  | ok concrete =>
    rw [hresult] at h
    refine ⟨concrete, rfl, fun hkeeps => ?_⟩
    have hlength : concrete.root.marks.length = kept := Option.some.inj h
    rw [Node.marks, List.length_map, ← hkeeps.length_eq] at hlength
    omega

/-- The headers of loops have no place for the test of a loop over keys, nor for an initialisation
besides declarations: without them the programs are plain, but with them a name is lost. -/
theorem crowded_headers_lose_leaves :
    ((Program.rangingLoop none).body.isPlain = true ∧ ∃ concrete,
      ((Program.rangingLoop (some (.ident ⟨⟨10, 11⟩, "a", false, false⟩))).concretise
        "for (x in a, b) c;" Settings.unforgiving).result = .ok concrete ∧
      ¬concrete.root.Keeps (Source.ofString "for (x in a, b) c;" .skipTrivia)
        [.name ⟨5, 6⟩ "x", .name ⟨10, 11⟩ "a", .name ⟨13, 14⟩ "b", .name ⟨16, 17⟩ "c"]) ∧
    ((Program.countingLoop none).body.isPlain = true ∧ ∃ concrete,
      ((Program.countingLoop (some (.ident ⟨⟨16, 17⟩, "b", false, false⟩))).concretise
        "for (var i = a, b;;) c;" Settings.unforgiving).result = .ok concrete ∧
      ¬concrete.root.Keeps (Source.ofString "for (var i = a, b;;) c;" .skipTrivia)
        [.name ⟨9, 10⟩ "i", .name ⟨13, 14⟩ "a", .name ⟨16, 17⟩ "b", .name ⟨21, 22⟩ "c"]) := by
  have hranging : (3 : Nat) < (Program.rangingLoop
      (some (.ident ⟨⟨10, 11⟩, "a", false, false⟩))).body.leaves.length := by decide +kernel
  have hcounting : (3 : Nat) < (Program.countingLoop
      (some (.ident ⟨⟨16, 17⟩, "b", false, false⟩))).body.leaves.length := by decide +kernel
  exact ⟨⟨by decide +kernel, not_keeps_of_length (by decide +kernel) hranging⟩,
    by decide +kernel, not_keeps_of_length (by decide +kernel) hcounting⟩

end Concretion
