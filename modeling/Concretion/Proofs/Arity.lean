import Concretion.Proofs.Shape.Tree

/-!
# Nodes have the children that they should have

The nodes of a tree do not carry a proof that they have the right children, and hardly any rule
counts them. Names are left out, blocks without braces leave any number of nodes, and children are
wrapped, put in order and merged once they are there. All the same, every node that comes out has
the children that its kind prescribes. Two things have to be as a parser has them: functions declare
their names only where a binding says so, and the blocks of `try` and `finally` have braces.

- `nodes_have_prescribed_children`: all nodes of a recovered tree are well-shaped.
-/

namespace Concretion

open Recover

/-- Whatever the text and the settings, every node of a recovered tree has the children that its
kind prescribes: as many as it should, and of the right kinds. -/
theorem nodes_have_prescribed_children (program : Program) (text : String) (settings : Settings)
    (hplace : program.body.meets .inPlace = true) :
    match (program.concretise text settings).result with
    | .ok concrete => ∀ node ∈ concrete.root.preorder,
        node.kind.admits (node.children.map Node.kind) = true
    | .error _ => True := by
  split
  · next concrete hresult =>
    obtain ⟨later, hrun, -, rfl⟩ := program.ok_of_concretise hresult
    obtain ⟨hgrown, hshaped⟩ := program.shaped_recover (.of text program.info settings) hplace []
      (List.forall_mem_nil _) _ rfl rfl _ later hrun
    -- only the root is open, and the children that it has got are its own
    have hroot : later.stack.root =
        { (Session.initial (.of text program.info settings) program.uri).stack.root with
          children := later.stack.children } := congrArg Stack.root hgrown.stack
    show later.stack.root.WellShaped
    rw [hroot]
    exact Node.wellShaped_iff.2 ⟨rfl, hshaped⟩
  · trivial

/-- A `try` statement without a handler. A function that is declared in it constructs itself, and
the `finally` block has a loop with a variable. -/
def Program.guardedLoop : Program :=
  ⟨"file:///test.js", ⟨⟨0, 80⟩, .synthetic,
    [.tryCatch ⟨0, 80⟩
      ⟨⟨4, 42⟩, .braced, [.binding ⟨⟨15, 40⟩, ⟨⟨15, 16⟩, "f", false, false⟩,
        some (.functionDef ⟨⟨6, 40⟩, ⟨⟨15, 16⟩, "f", false, false⟩, .normal,
          [⟨⟨17, 18⟩, "a", false, false⟩], ⟨⟨20, 40⟩, .braced,
            [.returnValue ⟨22, 38⟩ (some (.unary ⟨29, 37⟩ .construct (.call ⟨33, 37⟩
              (.ident ⟨⟨33, 34⟩, "f", false, false⟩)
              [.ident ⟨⟨35, 36⟩, "a", false, false⟩]))) false]⟩,
          false, false, true, false⟩), .var, true⟩]⟩
      []
      (some ⟨⟨51, 80⟩, .braced, [.block ⟨⟨53, 78⟩, .synthetic,
        [.binding ⟨⟨62, 67⟩, ⟨⟨62, 63⟩, "i", false, false⟩,
            some (.literal ⟨66, 67⟩ .number), .var, false⟩,
          .forLoop ⟨⟨53, 78⟩, .classic, none, none, none, ⟨⟨73, 78⟩, .synthetic,
            [.expression ⟨73, 78⟩ (.call ⟨73, 77⟩ (.ident ⟨⟨73, 74⟩, "f", false, false⟩)
              [.ident ⟨⟨75, 76⟩, "i", false, false⟩])]⟩⟩]⟩]⟩)]⟩, none⟩

/-- The tree of the guarded loop has twenty-seven nodes. -/
theorem children_in_guardedLoop :
    let program := Program.guardedLoop
    let text := "try { function f(a) { return new f(a); } } " ++
      "finally { for (var i = 1; ; ) f(i); }"
    let result := (program.concretise text ⟨.skipTrivia, true, false⟩).result
    program.body.meets .inPlace = true ∧
      result.toOption.map (·.root.preorder.length) = some 27 ∧
      match result with
      | .ok concrete => ∀ node ∈ concrete.root.preorder,
          node.kind.admits (node.children.map Node.kind) = true
      | .error _ => True := by
  have hplace : Program.guardedLoop.body.meets .inPlace = true := by decide +kernel
  refine ⟨hplace, by decide +kernel, ?_⟩
  exact nodes_have_prescribed_children Program.guardedLoop _ _ hplace

end Concretion
