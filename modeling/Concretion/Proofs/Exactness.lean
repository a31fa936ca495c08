import Concretion.Proofs.Runs
import Concretion.Proofs.Written.Recovered
import Concretion.Proofs.Written.Symbols

/-!
# Recovery of expressions is exact

A program that consists of an expression is recovered from its text as it is written: the tree is
that of the phrase, every symbol has the span of its token, and no token is missed. It does not
matter how many parentheses are around operands, nor what white space and which comments are between
tokens, so long as operators that are words are kept apart from other words.

- `Sheet.tree`: the tree of a program that consists of an expression statement.
- `recovery_of_expressions_is_exact`: that is what the program comes to.
-/

namespace Concretion

open Text Mark Recover Written

/-! ## Statements -/

namespace Node

theorem StandsIn.withSemicolon {node : Node} {page : Page} (h : node.StandsIn page) (flag : Bool) :
    Node.StandsIn { node with ownsSemicolon := flag } page := by
  intro below hbelow
  rcases mem_preorder.1 hbelow with rfl | hbelow
  · exact h node (mem_preorder.2 (.inl rfl))
  · exact h below (mem_preorder.2 (.inr hbelow))

theorem modifyLastChild_addChild (node first second : Node) :
    (node.addChild first).modifyLastChild (fun _ => second) = node.addChild second := by
  obtain ⟨kind, span, children, ownsSemicolon⟩ := node
  simp [modifyLastChild, addChild]

end Node

/-- The node of an expression that is a statement gets its semicolon. -/
theorem yields_statement (scope : Scope) (stack : Stack) (node : Node) (finish : Nat) :
    Yields scope (stack.attach node) (do
        match (← getStack).lastChild? with
        | none => pure ()
        | some statement =>
          let statement ← Rule.withSemicolon statement finish
          modifyStack (·.modifyCurrent (·.modifyLastChild fun _ => statement))) ()
      (stack.attach { node with
        ownsSemicolon := scope.source.endsWithSemicolon (max finish (node.last + 1)) }) := by
  have hchild : (stack.attach node).lastChild? = some node := by
    obtain ⟨root, _ | ⟨inner, outer⟩⟩ := stack <;> exact List.getLast?_concat
  -- The node has just been attached, so replacing the last child is attaching another node in its
  -- stead.
  have hreplace : ∀ statement : Node,
      (stack.attach node).modifyCurrent (·.modifyLastChild fun _ => statement) =
        stack.attach statement := by
    intro statement
    obtain ⟨root, _ | ⟨inner, outer⟩⟩ := stack <;>
      simp only [Stack.attach, Stack.modifyCurrent, Node.modifyLastChild_addChild]
  have hmodify : ∀ statement : Node, Yields scope (stack.attach node)
      (modifyStack (·.modifyCurrent (·.modifyLastChild fun _ => statement))) ()
      (stack.attach statement) :=
    fun statement => hreplace statement ▸ .modifyStack _
  have hsemicolon : Yields scope (stack.attach node) (Rule.withSemicolon node finish)
      { node with
        ownsSemicolon := scope.source.endsWithSemicolon (max finish (node.last + 1)) }
      (stack.attach node) := Yields.bind (Yields.source.bind (.pure _)) (.pure _)
  refine Yields.getStack.bind ?_
  rw [hchild]
  exact hsemicolon.bind (hmodify _)

/-- An expression that is a statement gets its semicolon. -/
theorem Attaches.expressionStatement {scope : Scope} {expression : Fragment} {node : Node}
    (h : Attaches scope expression.build node) (hlast : node.last + 1 = expression.range.finish) :
    Attaches scope (Rule.expressionStatement expression) { node with
      ownsSemicolon := scope.source.endsWithSemicolon expression.range.finish } := by
  intro stack
  have hplace : max expression.range.finish (node.last + 1) = expression.range.finish := by omega
  have hstatement := yields_statement scope stack node expression.range.finish
  rw [hplace] at hstatement
  exact (h stack).bind hstatement

/-! ## Sheets -/

namespace Written.Sheet

variable (sheet : Sheet)

/-- The sheet as a page. -/
def page : Page where
  marks := sheet.marks
  plain := by
    simp only [marks, rest, List.forall_mem_append]
    refine ⟨⟨plain_spread _, sheet.phrase.plain⟩, plain_spread _, ?_⟩
    cases sheet.semicolon with
    | none => exact List.forall_mem_nil _
    | some gap => exact List.forall_mem_cons.2 ⟨rfl, plain_spread gap⟩

/-- The text of the sheet, prepared for searches that skip comments. -/
def source : Source := .ofString sheet.text .skipTrivia

/-- The node of the statement, with its semicolon. -/
def statement : Node :=
  { sheet.phrase.node sheet.offset with
    ownsSemicolon := sheet.source.endsWithSemicolon (sheet.phrase.range sheet.offset).finish }

/-- The whole concrete tree. -/
def tree : Node := .branch .root (Range.span ⟨0, size sheet.marks⟩) [sheet.statement]

theorem at_phrase : sheet.page.At sheet.offset sheet.phrase.marks :=
  ⟨spread sheet.before, sheet.rest, rfl, rfl⟩

theorem solid_statement : sheet.statement.Solid (sheet.phrase.range sheet.offset) :=
  (sheet.phrase.solid sheet.offset).withSemicolon _

theorem check_tree : sheet.tree.check = .ok () := by
  have hrange := sheet.phrase.range_nonempty sheet.offset
  have hfinish : (sheet.phrase.range sheet.offset).finish ≤ size sheet.marks := by
    simp only [Phrase.range, marks, offset, size_append, Phrase.size_marks]
    omega
  refine (Node.check_branch_iff rfl rfl).2 ⟨List.forall_mem_nil _, ?_⟩
  exact Node.checkChildren_solid sheet.solid_statement (Nat.zero_le _) hfinish
    (Node.endsBefore_none _) (Node.endsBefore_none _) rfl

theorem standsIn_tree : sheet.tree.StandsIn sheet.page :=
  Node.standsIn_branch (List.forall_mem_nil _)
    (List.forall_mem_singleton.2 ((sheet.phrase.standsIn sheet.at_phrase).withSemicolon _))

theorem attaches_statement {scope : Scope} (hsource : scope.source = sheet.source)
    (hapart : sheet.phrase.isApart) (range : Range) :
    Attaches scope (Stmt.expression range (sheet.phrase.expr sheet.offset)).recover
      sheet.statement := by
  have hpage : scope.source = sheet.page.source := hsource
  have hphrase := sheet.phrase.recovered hpage sheet.at_phrase hapart
  have hsolid := sheet.phrase.solid sheet.offset
  have hlast : (sheet.phrase.node sheet.offset).last + 1 =
      (sheet.phrase.range sheet.offset).finish := by
    have := hsolid.nonempty
    rw [hsolid.last]
    omega
  rw [← range_fragment] at hlast
  have hstatement := hphrase.expressionStatement hlast
  rw [range_fragment, hsource] at hstatement
  exact hstatement

/-- The program of a sheet attaches the statement to the root, and misses no token. -/
theorem yields_program {scope : Scope} (hsource : scope.source = sheet.source)
    (hapart : sheet.phrase.isApart) (uri : String) (statement block : Range) (stack : Stack) :
    Yields scope stack (sheet.program uri statement block).recover ()
      (stack.attach sheet.statement) := by
  have hstatement := sheet.attaches_statement hsource hapart statement stack
  have hblock : Yields scope stack (sheet.program uri statement block).body.recover ()
      (stack.attach sheet.statement) := hstatement.bind (.pure ())
  exact (Yields.note _).bind (hblock.bind (.pure ()))

end Written.Sheet

/-- The program of a sheet is recovered as the tree of the sheet, without a warning, and every
symbol of the tree has the span of its token. -/
theorem recovery_of_expressions_is_exact (sheet : Sheet) (uri : String) (statement block : Range)
    (hapart : sheet.phrase.isApart) :
    ((sheet.program uri statement block).concretise sheet.text .unforgiving).result =
        .ok ⟨sheet.tree, []⟩ ∧
      sheet.tree.StandsIn sheet.page := by
  refine ⟨?_, sheet.standsIn_tree⟩
  let scope := Scope.of sheet.text none .unforgiving
  have hsource : scope.source = sheet.source := rfl
  obtain ⟨later, hrun, hstack, hwarnings, -, -⟩ :=
    sheet.yields_program hsource hapart uri statement block
      (Session.initial scope uri).stack (.initial scope uri) rfl rfl
  have hconcrete : later.concrete = ⟨sheet.tree, []⟩ := by
    have hsize : scope.source.size = size sheet.marks := sheet.page.size_source
    rw [Session.concrete, hstack, hwarnings]
    show Concrete.mk ⟨.root, Span.ofBounds 0 scope.source.size, [sheet.statement], false⟩ [] = _
    rw [hsize]
    rfl
  have hverdict : later.concrete.verdict true = .ok ⟨sheet.tree, []⟩ := by
    rw [hconcrete, Concrete.verdict, sheet.check_tree]
    rfl
  exact ((sheet.program uri statement block).result_of_recover hrun).trans hverdict

/-- A single letter as a name. -/
def Written.Name.letter (c : Char) (h : isWordChar c) : Name :=
  ⟨[c], List.cons_ne_nil c [], List.forall_mem_singleton.2 h⟩

/-- A single digit as a number. -/
def Written.Numeral.digit (c : Char) (h : c.isDigit) : Numeral :=
  ⟨[c], List.cons_ne_nil c [], List.forall_mem_singleton.2 h⟩

/-- An expression whose comments contain just the tokens that are looked for around them. -/
def Written.Sheet.misleading : Sheet where
  before := []
  phrase := .conditional
    (.binary ⟨.hasKey, "in", _, rfl, by decide⟩
      (.parens [] (.name (.letter 'a' rfl)) [.block [' ', 'i', 'n', ' ', '?', ' '] (by decide)])
      [.blank ' ' rfl] [.blank ' ' rfl, .line ['[', '('] (by decide)]
      (.call
        (.array (.hole [] (.more [.blank ' ' rfl] (.number (.digit '1' rfl)) [] (.none [])))) []
        (.last [] (.name (.letter 'b' rfl)) [])))
    [] [.blank ' ' rfl]
    (.unary ⟨.minus, "-", rfl⟩ [] (.name (.letter 'c' rfl))) [] []
    (.access (.name (.letter 'd' rfl)) [] [.blank ' ' rfl] (.letter 'e' rfl))
  after := []
  semicolon := some []

theorem misleading_sheet_is_recovered :
    let sheet := Sheet.misleading
    sheet.text = "(a/* in ? */) in //[(\n[, 1,](b)? -c:d. e;" ∧ sheet.phrase.isApart ∧
      ((sheet.program "file:///test.js" ⟨0, 41⟩ ⟨0, 41⟩).concretise sheet.text
        .unforgiving).result = .ok ⟨sheet.tree, []⟩ ∧
      sheet.tree.StandsIn sheet.page ∧
      (sheet.tree.preorder.flatMap Node.symbols).map (fun symbol =>
          (symbol.value, symbol.span.start)) =
        [("?", 31), (":", 35), ("in", 14), ("a", 1), ("[", 22), ("]", 27), ("1", 25), ("(", 28),
          (")", 30), ("b", 29), ("-", 33), ("c", 34), (".", 37), ("d", 36), ("e", 39)] := by
  intro sheet
  have hapart : sheet.phrase.isApart := by decide
  obtain ⟨hresult, hstands⟩ :=
    recovery_of_expressions_is_exact sheet "file:///test.js" ⟨0, 41⟩ ⟨0, 41⟩ hapart
  exact ⟨by decide +kernel, hapart, hresult, hstands, by decide +kernel⟩

/-- White space beyond ASCII counts as a part of the word next to it. -/
def Written.Sheet.noBreakSpace : Sheet where
  before := []
  phrase := .binary ⟨.hasKey, "in", _, rfl, by decide⟩ (.name (.letter 'a' rfl))
    [.blank '\u00A0' rfl] [.blank ' ' rfl] (.name (.letter 'b' rfl))
  after := []
  semicolon := none

/-- An addition with a comment in front of its operator that a carriage return ends. -/
def Program.carriageReturn : Program :=
  ⟨"file:///test.js", ⟨⟨0, 10⟩, .synthetic, [.expression ⟨0, 10⟩ (.binary ⟨0, 10⟩ .add
    (.ident ⟨⟨0, 1⟩, "a", false, false⟩) (.ident ⟨⟨9, 10⟩, "b", false, false⟩))]⟩, none⟩

/-- A word next to white space beyond ASCII is not found, nor is a token behind a comment that only
a carriage return ends. -/
theorem tokens_are_missed_beside_other_white_space :
    let program := Sheet.noBreakSpace.program "file:///test.js" ⟨0, 7⟩ ⟨0, 7⟩
    let lenient : Settings := ⟨.skipTrivia, false, true⟩
    Sheet.noBreakSpace.text = "a\u00A0in b" ∧
      (program.concretise "a\u00A0in b" .unforgiving).result.isOk = false ∧
      (program.concretise "a\u00A0in b" lenient).fallbacks =
        [⟨"in", 1, 6, "Binary", some ⟨1, 5⟩⟩] ∧
      (Program.carriageReturn.concretise "a // x\r+ b" .unforgiving).result.isOk = false ∧
      (Program.carriageReturn.concretise "a // x\r+ b" lenient).fallbacks =
        [⟨"+", 1, 9, "Binary", some ⟨1, 8⟩⟩] := by
  decide +kernel

end Concretion
