import Concretion.Proofs.Runs
import Concretion.Proofs.Written.Sequence
import Mathlib.Data.List.Nodup
import Mathlib.Data.List.SplitBy

/-!
# Recovery of imports and star exports

Imports and star exports are recovered in two passes over the text, neither of which knows of the
other one. A pass looks for the next string that names the module, whichever statement the string
belongs to. So a module is recovered as it is written, or not at all: it depends on whether a
statement of one kind stands in the way of one of the other kind, by naming the same module.

- `Manuscript.comes_imports`, `Manuscript.comes_starExports`: what both passes come to.
- `mergeSort_eq`: both kinds of nodes are merged in the order of the text.
- `recovery_of_modules`: what the program of a module comes to.
-/

namespace Concretion

open Text Recover

namespace Written

open Chunk

/-! ## Entries and statements -/

/-- What lists map to is cut into pieces as the lists are. -/
theorem exists_groups {α β γ : Type} {f : α → γ} {g : β → List γ} {items : List α} {wholes : List β}
    (h : items.map f = wholes.flatMap g) :
    ∃ groups : List (List α), items = groups.flatten ∧
      List.Forall₂ (fun whole group => group.map f = g whole) wholes groups := by
  induction wholes generalizing items with
  | nil => exact ⟨[], List.map_eq_nil_iff.1 h, .nil⟩
  | cons whole rest ih =>
    rw [List.flatMap_cons] at h
    obtain ⟨group, others, rfl, hgroup, hothers⟩ := List.map_eq_append_iff.1 h
    obtain ⟨groups, rfl, hgroups⟩ := ih hothers
    exact ⟨group :: groups, rfl, .cons hgroup hgroups⟩

/-- What holds of all that anything is related to. -/
theorem forall_of_forall₂ {α β : Type} {T : α → β → Prop} {P : β → Prop}
    (hstep : ∀ a b, T a b → P b)
    {as : List α} {bs : List β} (h : List.Forall₂ T as bs) : ∀ b ∈ bs, P b := by
  induction h with
  | nil => exact List.forall_mem_nil _
  | @cons a b as bs hab hrest ih => exact List.forall_mem_cons.2 ⟨hstep a b hab, ih⟩

/-- What holds of neighbours holds of what is related to them. -/
theorem isChain_of_forall₂ {α β : Type} {R : α → α → Prop} {S : β → β → Prop} {T : α → β → Prop}
    (hstep : ∀ a a' b b', T a b → T a' b' → R a a' → S b b') {as : List α} {bs : List β}
    (h : List.Forall₂ T as bs) (hchain : as.IsChain R) : bs.IsChain S := by
  induction h with
  | nil => exact .nil
  | @cons a b as bs hab hrest ih =>
    cases hrest with
    | nil => exact .singleton b
    | @cons a' b' as bs hab' hrest =>
      obtain ⟨hnext, hchain⟩ := List.isChain_cons_cons.1 hchain
      exact .cons_cons (hstep a a' b b' hab hab' hnext) (ih hchain)

/-- The entries of an import statement are all from its module, and there is at least one. -/
theorem Statement.Imports.requests {statement : Statement} {entries : List ImportEntry}
    (h : statement.Imports entries) (hkind : statement.body.isImport = true) :
    entries ≠ [] ∧ ∀ entry ∈ entries, entry.request = statement.request := by
  obtain ⟨clause, afterFrom, hbody⟩ := exists_clause hkind
  rw [Imports, importKeys, hbody] at h
  dsimp only at h
  constructor
  · rintro rfl
    exact clause.nonempty (List.map_eq_nil_iff.1 h.symm)
  · intro entry hentry
    have hmem := List.mem_map_of_mem (f := fun entry : ImportEntry =>
      (entry.request, entry.importName, entry.boundName)) hentry
    rw [h] at hmem
    obtain ⟨part, -, hpart⟩ := List.mem_map.1 hmem
    exact (congrArg Prod.fst hpart).symm

namespace Manuscript

variable {manuscript : Manuscript} {info : ModuleInfo} {scope : Scope} {stack : Stack}

/-- Neighbouring entries are from the same module just if they are from the same statement. -/
theorem Describes.imports (h : manuscript.Describes info) (halternates : manuscript.alternates) :
    List.Forall₂ Statement.Imports (manuscript.statements.filter (·.body.isImport))
      (info.imports.splitBy fun a b => a.request == b.request) := by
  have hkeys : ∀ statements : List Statement, statements.flatMap Statement.importKeys =
      (statements.filter (·.body.isImport)).flatMap Statement.importKeys := by
    intro statements
    induction statements with
    | nil => rfl
    | cons statement rest ih =>
      rw [List.filter_cons, List.flatMap_cons, ih]
      cases hbody : statement.body with
      | imports => rfl
      | exports => rw [Statement.importKeys, hbody]; rfl
  obtain ⟨groups, hflatten, hgroups⟩ := exists_groups (h.1.trans (hkeys _))
  have himports : List.Forall₂ Statement.Imports (manuscript.statements.filter (·.body.isImport))
      groups := hgroups
  have hrequests : List.Forall₂ (fun statement entries => entries ≠ [] ∧
      ∀ entry ∈ entries, entry.request = Statement.request statement)
      (manuscript.statements.filter (·.body.isImport)) groups := by
    have hboth := (List.forall₂_and_left _ _).2 ⟨fun _ hmem => (List.mem_filter.1 hmem).2, himports⟩
    exact hboth.imp fun statement entries h => h.2.requests h.1
  -- The groups are what the list is split into: none is empty, each is from one module, and
  -- neighbours are from different ones.
  have hsplit : info.imports.splitBy (fun a b => a.request == b.request) = groups := by
    rw [hflatten]
    refine List.splitBy_flatten ?_ ?_ ?_
    · intro hmem
      exact forall_of_forall₂ (fun _ _ hentries => hentries.1) hrequests _ hmem rfl
    · refine forall_of_forall₂ (fun statement entries hentries => ?_) hrequests
      refine (List.pairwise_of_forall_mem_list fun a ha b hb => ?_).isChain
      rw [hentries.2 a ha, hentries.2 b hb]
      exact beq_self_eq_true _
    · refine isChain_of_forall₂ ?_ hrequests halternates
      intro this next entries others hentries hothers hne
      refine ⟨hentries.1, hothers.1, ?_⟩
      rw [hentries.2 _ (List.getLast_mem _), hothers.2 _ (List.head_mem _)]
      exact beq_eq_false_iff_ne.2 hne
  rw [hsplit]
  exact himports

theorem Describes.starExports (h : manuscript.Describes info) :
    List.Forall₂ Statement.Exports (manuscript.statements.filter (!·.body.isImport))
      info.starExports := by
  have hkeys : ∀ statements : List Statement, statements.filterMap Statement.exportKey? =
      (statements.filter (!·.body.isImport)).map Statement.request := by
    intro statements
    induction statements with
    | nil => rfl
    | cons statement rest ih =>
      rw [List.filterMap_cons, List.filter_cons, ih, Statement.exportKey?]
      cases statement.body.isImport <;> rfl
  have hsame := h.2
  rw [hkeys, List.map_map, ← List.forall₂_eq_eq_eq, List.forall₂_map_left_iff,
    List.forall₂_map_right_iff] at hsame
  exact hsame.flip

end Manuscript

/-! ## Both passes -/

namespace Manuscript

variable {manuscript : Manuscript} {info : ModuleInfo} {scope : Scope} {stack : Stack}

/-- At the start of a text all statements are ahead. -/
theorem ahead (manuscript : Manuscript) (isImport : Bool) :
    Ahead manuscript.chunks isImport 0 [] []
      (manuscript.statements.flatMap Statement.chunks ++ spread manuscript.after) :=
  Ahead.start manuscript.chunks isImport

theorem comes_imports (hsource : scope.source = manuscript.source) (hstrict : scope.strict = true)
    (h : manuscript.Describes info) (halternates : manuscript.alternates)
    (hapart : manuscript.isApart = true) (hclear : manuscript.isUnambiguous = true) :
    Comes scope stack (Rule.imports info.imports)
      (if Statement.areUntangled true [] manuscript.statements then
        some ((Statement.nodes manuscript.source 0 manuscript.statements).filter (·.isImport))
      else none) := by
  have hitems : List.Forall₂ Statement.Imports
      (manuscript.statements.filter (·.body.isImport == true))
      (info.imports.splitBy fun a b => a.request == b.request) := by
    simpa only [beq_true] using h.imports halternates
  have hloop : Loop scope stack manuscript.chunks true Statement.Imports Rule.importGroups :=
    loop_importGroups hsource hstrict
  have hcomes := hloop.comes hitems (List.all_eq_true.1 hapart) (List.all_eq_true.1 hclear)
    (manuscript.ahead true)
  simp only [beq_true] at hcomes
  exact hcomes

theorem comes_starExports (hsource : scope.source = manuscript.source)
    (hstrict : scope.strict = true) (h : manuscript.Describes info)
    (hapart : manuscript.isApart = true) (hclear : manuscript.isUnambiguous = true) :
    Comes scope stack (Rule.starExports info.starExports 0)
      (if Statement.areUntangled false [] manuscript.statements then
        some ((Statement.nodes manuscript.source 0 manuscript.statements).filter (!·.isImport))
      else none) := by
  have hitems : List.Forall₂ Statement.Exports
      (manuscript.statements.filter (·.body.isImport == false)) info.starExports := by
    simpa only [beq_false] using h.starExports
  have hloop : Loop scope stack manuscript.chunks false Statement.Exports Rule.starExports :=
    loop_starExports hsource hstrict
  have hcomes := hloop.comes hitems (List.all_eq_true.1 hapart) (List.all_eq_true.1 hclear)
    (manuscript.ahead false)
  simp only [beq_false] at hcomes
  exact hcomes

end Manuscript

/-! ## Merging -/

/-- Nodes that start one behind the other are sorted in just one way. -/
theorem mergeSort_eq {items sorted : List Node} (hperm : items.Perm sorted)
    (hsorted : sorted.Pairwise fun a b => a.start < b.start) :
    items.mergeSort (fun a b => a.start ≤ b.start) = sorted := by
  have hinj : ∀ a ∈ sorted, ∀ b ∈ sorted, a.start = b.start → a = b := by
    have hnodup : (sorted.map Node.start).Nodup :=
      (List.pairwise_map.2 hsorted).imp fun hlt => Nat.ne_of_lt hlt
    intro a ha b hb
    exact List.inj_on_of_nodup_map hnodup ha hb
  have hmerged := (List.mergeSort_perm items fun a b => a.start ≤ b.start).trans hperm
  refine hmerged.eq_of_pairwise (fun a b ha hb hab hba => ?_) ?_ (hsorted.imp Nat.le_of_lt)
  · exact hinj a (hmerged.mem_iff.1 ha) b hb (Nat.le_antisymm hab hba)
  · refine (List.pairwise_mergeSort ?_ ?_ items).imp of_decide_eq_true
    · intro a b c hab hbc
      exact decide_eq_true (Nat.le_trans (of_decide_eq_true hab) (of_decide_eq_true hbc))
    · intro a b
      rw [Bool.or_eq_true, decide_eq_true_eq, decide_eq_true_eq]
      exact Nat.le_total a.start b.start

/-- Statements start one behind the other. -/
theorem Statement.pairwise_nodes (text : Source) (statements : List Statement) (offset : Nat) :
    (nodes text offset statements).Pairwise (fun a b => a.start < b.start) ∧
      ∀ node ∈ nodes text offset statements, offset ≤ node.start := by
  induction statements generalizing offset with
  | nil => exact ⟨.nil, List.forall_mem_nil _⟩
  | cons statement rest ih =>
    obtain ⟨hpairwise, hbehind⟩ := ih (offset + size statement.chunks)
    have hstart : (statement.node text (offset + size (spread statement.before))).start =
        offset + size (spread statement.before) := rfl
    have hcore := (statement.solid text (offset + size (spread statement.before))).nonempty
    have hsize : size statement.chunks = size (spread statement.before) +
        (size statement.core + size (spread statement.behind ++ [.sign .semicolon] :
          List Chunk)) := by
      rw [chunks, size_append, size_append]
    refine ⟨List.pairwise_cons.2 ⟨fun node hnode => ?_, hpairwise⟩, ?_⟩
    · have hnode := hbehind node hnode
      rw [hstart]
      dsimp only at hcore
      omega
    · refine List.forall_mem_cons.2 ⟨Nat.le_add_right _ _, fun node hnode => ?_⟩
      exact (Nat.le_add_right _ _).trans (hbehind node hnode)

/-! ## The program of a module -/

namespace Manuscript

variable {manuscript : Manuscript} {info : ModuleInfo} {scope : Scope} {stack : Stack}

/-- All statements come to the root in their order. -/
theorem yields_moduleItems (hsource : scope.source = manuscript.source)
    (hstrict : scope.strict = true) (h : manuscript.Describes info)
    (halternates : manuscript.alternates) (hapart : manuscript.isApart = true)
    (hclear : manuscript.isUnambiguous = true) (huntangled : manuscript.isUntangled = true)
    (hempty : stack.children = []) :
    Yields scope stack (Rule.moduleItems info) ()
      (stack.setChildren (Statement.nodes manuscript.source 0 manuscript.statements)) := by
  rw [isUntangled, Bool.and_eq_true] at huntangled
  let nodes := Statement.nodes manuscript.source 0 manuscript.statements
  have himports :
      Yields scope stack (Rule.imports info.imports) (nodes.filter (·.isImport)) stack := by
    have hcomes : Comes scope stack (Rule.imports info.imports) _ :=
      comes_imports hsource hstrict h halternates hapart hclear
    rwa [huntangled.1, if_pos rfl] at hcomes
  have hexports : Yields scope stack (Rule.starExports info.starExports 0)
      (nodes.filter (!·.isImport)) stack := by
    have hcomes : Comes scope stack (Rule.starExports info.starExports 0) _ :=
      comes_starExports hsource hstrict h hapart hclear
    rwa [huntangled.2, if_pos rfl] at hcomes
  -- Imports come first and exports behind them. Sorting by the starts puts them back in the order
  -- of the text.
  have hperm : (nodes.filter (·.isImport) ++ nodes.filter (!·.isImport)).Perm nodes :=
    List.filter_append_perm (·.isImport) nodes
  have hmerged := mergeSort_eq hperm
    (Statement.pairwise_nodes manuscript.source manuscript.statements 0).1
  refine himports.bind (hexports.bind ?_)
  dsimp only
  cases hitems : nodes.filter (·.isImport) ++ nodes.filter (!·.isImport) with
  | nil =>
    rw [hitems] at hperm
    have hnone : Statement.nodes manuscript.source 0 manuscript.statements = [] :=
      List.perm_nil.1 hperm.symm
    have hsame := stack.setChildren_children
    rw [hempty] at hsame
    rw [hnone, hsame]
    exact .pure ()
  | cons item items =>
    have hchildren : ((stack.children ++ item :: items).mergeSort fun a b => a.start ≤ b.start) =
        nodes := by
      rw [hempty, List.nil_append, ← hitems]
      exact hmerged
    refine (Yields.note _).bind ?_
    show Yields scope stack _ () (stack.setChildren nodes)
    rw [← hchildren]
    exact Yields.modifyStack _

/-- One of the statements is taken for another one. -/
theorem misses_moduleItems (hsource : scope.source = manuscript.source)
    (hstrict : scope.strict = true) (h : manuscript.Describes info)
    (halternates : manuscript.alternates) (hapart : manuscript.isApart = true)
    (hclear : manuscript.isUnambiguous = true) (htangled : manuscript.isUntangled = false) :
    Misses scope stack (Rule.moduleItems info) := by
  have himports : Comes scope stack (Rule.imports info.imports) _ :=
    comes_imports hsource hstrict h halternates hapart hclear
  have hexports : Comes scope stack (Rule.starExports info.starExports 0) _ :=
    comes_starExports hsource hstrict h hapart hclear
  rw [isUntangled] at htangled
  cases huntangled : Statement.areUntangled true [] manuscript.statements with
  | false =>
    rw [huntangled] at himports
    exact Misses.bind himports _
  | true =>
    rw [huntangled] at himports htangled
    rw [Bool.true_and] at htangled
    rw [htangled] at hexports
    exact Yields.misses himports (Misses.bind hexports _)

end Manuscript

end Written

open Written

/-- What a parser makes of a module that has only imports and star exports. -/
def Program.ofModule (uri : String) (block : Range) (info : ModuleInfo) : Program :=
  ⟨uri, ⟨block, .synthetic, []⟩, some info⟩

/-- The program of a module is recovered without a warning as the tree of the module: one node for
each statement, in the order of the text, from the keyword to the name of the module, with the nodes
of the bindings where they are. That is so unless a statement names a module that one of the other
kind names between it and the statement of its own kind before it. In that case the recovery ends at
a token that is missed. -/
theorem recovery_of_modules (manuscript : Manuscript) (info : ModuleInfo) (uri : String)
    (block : Range) (hdescribes : manuscript.Describes info) (halternates : manuscript.alternates)
    (hapart : manuscript.isApart = true) (hclear : manuscript.isUnambiguous = true) :
    let result := ((Program.ofModule uri block info).concretise manuscript.text .unforgiving).result
    if manuscript.isUntangled then result = .ok ⟨manuscript.tree, []⟩
    else ∃ missing, result = .error (.missing missing) := by
  intro result
  let program := Program.ofModule uri block info
  let scope := Scope.of manuscript.text info .unforgiving
  let stack := (Session.initial scope uri).stack
  have hsource : scope.source = manuscript.source := rfl
  split
  · next huntangled =>
    have hitems : Yields scope stack (Rule.moduleItems info) () _ :=
      manuscript.yields_moduleItems hsource rfl hdescribes halternates hapart hclear huntangled rfl
    have hrecover : Yields scope stack program.recover () _ :=
      (Yields.note _).bind ((Yields.pure ()).bind hitems)
    obtain ⟨later, hrun, hstack, hwarnings, -, -⟩ := hrecover (.initial scope uri) rfl rfl
    have hsize : scope.source.size = Chunk.size manuscript.chunks := size_encoded _
    have hconcrete : later.concrete = ⟨manuscript.tree, []⟩ := by
      rw [Session.concrete, hstack, hwarnings]
      show Concrete.mk ⟨.root, Span.ofBounds 0 scope.source.size,
        Statement.nodes manuscript.source 0 manuscript.statements, false⟩ [] = _
      rw [hsize]
      rfl
    have hverdict : later.concrete.verdict true = .ok ⟨manuscript.tree, []⟩ := by
      rw [hconcrete, Concrete.verdict, manuscript.check_tree]
      rfl
    exact (program.result_of_recover hrun).trans hverdict
  · next htangled =>
    have hitems : Misses scope stack (Rule.moduleItems info) :=
      manuscript.misses_moduleItems hsource rfl hdescribes halternates hapart hclear
        (Bool.eq_false_iff.2 htangled)
    have hrecover : Misses scope stack program.recover :=
      (Yields.note _).misses ((Yields.pure ()).misses hitems)
    obtain ⟨missing, later, hrun⟩ := (hrecover.bind fun _ => program.conclude true)
      (.initial scope uri) rfl rfl
    refine ⟨missing, ?_⟩
    show (program.concretise manuscript.text .unforgiving).result = _
    rw [Program.result_concretise]
    exact congrArg Prod.fst hrun

/-- A single letter as the name of a binding. -/
def Written.Binder.letter (c : Char)
    (h : (!([c] : List Char).isEmpty && [c].all fun c => isWordChar c && !isSpace c) = true) :
    Binder where
  toWord := .spelled [c] h
  isFree := by constructor <;> exact fun h => by cases h
  isBindable := by constructor <;> exact fun h => by cases h

/-- A single letter as the name of a module. -/
def Written.Quoted.letter (c : Char) (h : c ∉ ['\x27', '\x22', '\x5c', '\n']) : Quoted :=
  ⟨'\x27', .inl rfl, [c], List.forall_mem_singleton.2 h⟩

/-- An import and a star export of one module, with a star export of another one in between. -/
def Written.Manuscript.separated : Manuscript where
  statements :=
    let space : Space := ⟨[.blank ' ' isSpace_blank], List.cons_ne_nil _ _⟩
    [⟨[], .imports
        ⟨[.filler (.blank ' ' isSpace_blank)],
          [⟨.standard (.letter 'a' rfl), [.comma, .leftBrace], List.cons_ne_nil _ _⟩,
            ⟨.renamed (Binder.letter 'b' rfl).toExportedName space space (.letter 'c' rfl),
              [.rightBrace], List.cons_ne_nil _ _⟩],
          List.cons_ne_nil _ _⟩ [], .letter 'm' (by decide), []⟩,
      ⟨[.line ['*', '\x27', 'm', '\x27'] (by decide)], .exports [.blank ' ' isSpace_blank] [] [],
        .letter 'n' (by decide), []⟩,
      ⟨[], .exports [] [] [.blank ' ' isSpace_blank], .letter 'm' (by decide),
        [.blank ' ' isSpace_blank]⟩]
  after := [.blank '\n' rfl]

/-- An import, and a star export of the same module. -/
def Written.Manuscript.tangled : Manuscript where
  statements :=
    [⟨[], .imports ⟨[.filler (.blank ' ' isSpace_blank)],
        [⟨.standard (.letter 'a' rfl), [.filler (.blank ' ' isSpace_blank)], List.cons_ne_nil _ _⟩],
        List.cons_ne_nil _ _⟩ [.blank ' ' isSpace_blank], .letter 'm' (by decide), []⟩,
      ⟨[.blank '\n' rfl], .exports [.blank ' ' isSpace_blank] [.blank ' ' isSpace_blank]
        [.blank ' ' isSpace_blank],
        .letter 'm' (by decide), []⟩]
  after := []

/-- An import and a star export of one module are recovered if another star export is between them.
Otherwise the string of the import is taken for the one of the export, and no keyword is found in
front of it. -/
theorem modules_imported_and_exported :
    let separated := Manuscript.separated
    let info : ModuleInfo :=
      ⟨[⟨"m", "default", some "a"⟩, ⟨"m", "b", some "c"⟩], [],
        [⟨none, none, some "n"⟩, ⟨none, none, some "m"⟩]⟩
    let tangled := Manuscript.tangled
    let other : ModuleInfo := ⟨[⟨"m", "default", some "a"⟩], [], [⟨none, none, some "m"⟩]⟩
    (separated.text = "import a,\x7bb as c\x7dfrom'm';//*'m'\nexport *from'n';export*from 'm' ;\n" ∧
      separated.Describes info ∧
      ((Program.ofModule "file:///test.js" ⟨0, 66⟩ info).concretise separated.text
        .unforgiving).result = .ok ⟨separated.tree, []⟩ ∧
      separated.tree.children.map (fun statement =>
          (statement.start, statement.last + 1, statement.children.map (·.span))) =
        [(0, 24, [⟨7, 7⟩, ⟨10, 15⟩]), (32, 47, []), (48, 63, [])]) ∧
    (tangled.text = "import a from 'm';\nexport * from 'm';" ∧ tangled.Describes other ∧
      ∃ missing, ((Program.ofModule "file:///test.js" ⟨0, 37⟩ other).concretise tangled.text
        .unforgiving).result = .error (.missing missing)) := by
  intro separated info tangled other
  have hdescribes : separated.Describes info := ⟨by decide, by decide⟩
  have hrecovered := recovery_of_modules separated info "file:///test.js" ⟨0, 66⟩ hdescribes
    (.singleton _) (by decide) (by decide)
  have hdescribes' : tangled.Describes other := ⟨by decide, by decide⟩
  have hmissed := recovery_of_modules tangled other "file:///test.js" ⟨0, 37⟩ hdescribes'
    (.singleton _) (by decide) (by decide)
  have huntangled : separated.isUntangled = true := by decide
  have htangled : tangled.isUntangled = false := by decide
  rw [huntangled, if_pos rfl] at hrecovered
  rw [htangled, if_neg Bool.false_ne_true] at hmissed
  exact ⟨⟨by decide +kernel, hdescribes, hrecovered, by decide +kernel⟩, by decide +kernel,
    hdescribes', hmissed⟩

end Concretion
