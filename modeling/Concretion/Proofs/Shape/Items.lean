import Concretion.Proofs.Shape.Rules
import Concretion.Recovery.Rule.ModuleItems

/-!
# Imports and exports are well-shaped

An import statement has specifiers below it, as many as could be located, and a specifier has one or
two names. An export of everything from another module has no children.

- `Rule.findsSpecifier_namespace`, `Rule.findsSpecifier_name`: the two sorts of specifiers.
- `Rule.shaped_moduleItems`: the statements of a module among those of the program.
-/

namespace Concretion

open Recover

namespace Rule

variable {scope : Scope}

/-! ## Imports -/

theorem looks_importedName (name : String) (start finish : Nat) :
    Looks scope (importedName name start finish) fun found =>
      ∀ node ∈ found, node.WellShaped ∧ node.kind.isIdentifier = true := by
  refine Looks.source.bind fun text _ => (Looks.settle? _).bind fun found _ => ?_
  cases found with
  | none =>
    refine .pure ?_
    rintro node ⟨⟩
  | some offset =>
    refine (looks_identifier _ _ _).bind fun node hnode => .pure ?_
    rintro _ ⟨⟩
    exact hnode

/-- A well-shaped node of a specifier, if there is one. -/
abbrev FindsSpecifier (scope : Scope) (action : Recover (Option Node)) : Prop :=
  Looks scope action fun found => ∀ node ∈ found, node.WellShaped ∧ node.kind.isSpecifier = true

theorem findsSpecifier_none : FindsSpecifier scope (Pure.pure none) := by
  refine .pure ?_
  rintro node ⟨⟩

theorem findsSpecifier_namespace (entry : ImportEntry) (start finish : Nat) :
    FindsSpecifier scope (namespaceSpecifier entry start finish) := by
  refine Looks.source.bind fun text _ => (Looks.settle? _).bind fun found _ => ?_
  cases found with
  | none => exact findsSpecifier_none
  | some offset =>
    refine (Looks.symbolAt _ _).bind fun star _ => ?_
    refine (looks_importedName _ _ _).bind fun name hname => ?_
    cases name with
    | none => exact findsSpecifier_none
    | some name =>
      obtain ⟨hshaped, hkind⟩ := hname name rfl
      refine (Looks.mergeSpans _ _).bind fun span _ => .pure ?_
      rintro _ ⟨⟩
      refine ⟨Node.wellShaped_iff.2 ⟨?_, List.forall_mem_singleton.2 hshaped⟩, rfl⟩
      exact (Bool.and_true _).trans hkind

theorem findsSpecifier_around {first : Node} {second : Option Node}
    (hfirst : first.WellShaped ∧ first.kind.isIdentifier = true)
    (hsecond : ∀ node ∈ second, node.WellShaped ∧ node.kind.isIdentifier = true) :
    FindsSpecifier scope (specifierAround first second) := by
  refine (Looks.mergeSpans _ _).bind fun span _ => .pure ?_
  rintro _ ⟨⟩
  have hnames : ∀ node ∈ first :: second.toList,
      node.WellShaped ∧ node.kind.isIdentifier = true :=
    List.forall_mem_cons.2
      ⟨hfirst, fun node hnode => hsecond node (Option.mem_toList.1 hnode)⟩
  refine ⟨Node.wellShaped_iff.2 ⟨?_, fun node hnode => (hnames node hnode).1⟩, rfl⟩
  show List.all _ _ = true
  rw [List.all_map, List.all_eq_true]
  exact fun node hnode => (hnames node hnode).2

theorem findsSpecifier_name (entry : ImportEntry) (start finish : Nat) :
    FindsSpecifier scope (nameSpecifier entry start finish) := by
  rw [nameSpecifier]
  generalize (if entry.isDefault then entry.boundName else entry.importName) = written
  refine (looks_importedName _ _ _).bind fun first hfirst => ?_
  cases first with
  | none => exact findsSpecifier_none
  | some first =>
    have hname := hfirst first rfl
    dsimp only
    split
    · refine findsSpecifier_around hname ?_
      rintro node ⟨⟩
    · exact (looks_importedName _ _ _).bind fun second => findsSpecifier_around hname

theorem looks_specifiers (finish : Nat) (entries : List ImportEntry) (start : Nat) :
    Looks scope (specifiers finish entries start) fun nodes =>
      ∀ node ∈ nodes, node.WellShaped ∧ node.kind.isSpecifier = true := by
  induction entries generalizing start with
  | nil => exact .pure (List.forall_mem_nil _)
  | cons entry rest ih =>
    have hfound : ∀ found : Option Node,
        (∀ node ∈ found, node.WellShaped ∧ node.kind.isSpecifier = true) →
        Looks scope (specifiersBehind (specifiers finish rest) start found) fun nodes =>
          ∀ node ∈ nodes, node.WellShaped ∧ node.kind.isSpecifier = true := by
      intro found hspecifier
      cases found with
      | none => exact ih start
      | some specifier =>
        refine (ih _).bind fun nodes hnodes => .pure ?_
        exact List.forall_mem_cons.2 ⟨hspecifier specifier rfl, hnodes⟩
    rw [specifiers]
    split
    · exact (findsSpecifier_namespace _ _ _).bind hfound
    · exact (findsSpecifier_name _ _ _).bind hfound

/-! ## Statements -/

theorem looks_moduleStatement (keyword context request : String) (cursor : Nat) :
    Looks scope (moduleStatement keyword context request cursor) fun _ => True := by
  refine Looks.source.bind fun text _ => (Looks.settle? _).bind fun path _ => ?_
  cases path with
  | none => exact .pure trivial
  | some path =>
    refine (Looks.settle? _).bind fun offset _ => ?_
    cases offset with
    | none => exact .pure trivial
    | some offset => exact (Looks.symbolAt _ _).bind fun _ _ => .pure trivial

theorem looks_importGroups (groups : List (List ImportEntry)) (cursor : Nat) :
    Looks scope (importGroups groups cursor) fun nodes => ∀ node ∈ nodes, node.WellShaped := by
  induction groups generalizing cursor with
  | nil => exact .pure (List.forall_mem_nil _)
  | cons entries rest ih =>
    have hstatement : ∀ request : String, Looks scope (importStatement request entries cursor)
        fun found => ∀ node ∈ found.1, node.WellShaped := by
      intro request
      refine (looks_moduleStatement _ _ _ _).bind fun place _ => ?_
      cases place with
      | none =>
        refine .pure ?_
        rintro node ⟨⟩
      | some place =>
        refine (looks_specifiers _ _ _).bind fun names hnames => ?_
        refine (Looks.symbolOver _ _).bind fun symbol _ => ?_
        refine (Looks.endsWithSemicolon _).bind fun flag _ => .pure ?_
        rintro _ ⟨⟩
        refine Node.wellShaped_iff.2 ⟨?_, fun name hname => (hnames name hname).1⟩
        show List.all _ _ = true
        rw [List.all_map, List.all_eq_true]
        exact fun name hname => (hnames name hname).2
    refine (hstatement _).bind fun found hfound => ?_
    refine (ih _).bind fun nodes hnodes => .pure ?_
    exact List.forall_mem_append.2
      ⟨fun node hnode => hfound node (Option.mem_toList.1 hnode), hnodes⟩

theorem looks_starExports (entries : List ExportEntry) (cursor : Nat) :
    Looks scope (starExports entries cursor) fun nodes => ∀ node ∈ nodes, node.WellShaped := by
  induction entries generalizing cursor with
  | nil => exact .pure (List.forall_mem_nil _)
  | cons entry rest ih =>
    unfold starExports
    split
    · exact ih cursor
    · refine (looks_moduleStatement _ _ _ _).bind fun place _ => ?_
      cases place with
      | none => exact ih cursor
      | some place =>
        refine (Looks.symbolOver _ _).bind fun symbol _ => ?_
        refine (Looks.endsWithSemicolon _).bind fun flag _ => ?_
        refine (ih _).bind fun nodes hnodes => .pure (List.forall_mem_cons.2 ⟨?_, hnodes⟩)
        exact Node.wellShaped_iff.2 ⟨rfl, List.forall_mem_nil _⟩

/-- The statements known from the metadata go among the children of the root. -/
theorem shaped_moduleItems (info : ModuleInfo) : KeepsShape scope (moduleItems info) := by
  refine .after (looks_importGroups _ _) fun imports himports => ?_
  refine .after (looks_starExports _ _) fun exports hexports => ?_
  dsimp only
  split
  · refine .after (.note _) fun _ _ => fun children hchildren => ?_
    refine (Gives.modifyStack fun stack hstack => by rw [hstack]).mono ?_
    rintro _ _ rfl node hnode
    rcases List.mem_append.1 (List.mem_mergeSort.1 hnode) with hnode | hnode
    · exact hchildren node hnode
    · exact List.forall_mem_append.2 ⟨himports, hexports⟩ node hnode
  · exact .pure

end Rule

end Concretion
