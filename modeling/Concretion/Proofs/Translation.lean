import Concretion.Proofs.Layout
import Concretion.Proofs.Shift.Tree
import Concretion.Proofs.Strictness

/-!
# Recovery does not depend on where the text begins

Blank space in front of a text moves the tree and changes nothing else. Offsets are looked up, have
keywords taken off and are bounded below by zero, and what a slash means depends on the text before
it, but the beginning of the text is no special place for any of this.

- `Node.check_shift`: a moved tree is as well laid out as before.
- `Session.Moved.verdict`: so is a finished tree of which all but the root is moved.
- `blanks_in_front_move_the_tree`: the tree of a program with blank space in front of its text.
-/

namespace Concretion

open Recover

namespace Node

/-! ## The check of a moved tree -/

section Moved

variable {count : Nat} {span wide : Span}

/-- The second span holds whatever the first one does, further to the right. -/
def Holds (count : Nat) (span wide : Span) : Prop :=
  ∀ inner, span.contains inner = true → wide.contains (inner.shift count) = true

theorem holds_shift : Holds count span (span.shift count) := by
  intro inner h
  obtain ⟨hstart, hlast⟩ := Span.contains_iff.1 h
  exact Span.contains_iff.2 ⟨Nat.add_le_add_left hstart count, Nat.add_le_add_left hlast count⟩

theorem checkSelf_shift {kind : NodeKind} {childCount : Nat} (hwide : Holds count span wide)
    (hpoint : kind.isPlaceholder = true → span.start = span.last → wide.start = wide.last)
    (h : checkSelf kind span childCount = .ok ()) :
    checkSelf (kind.shift count) wide childCount = .ok () := by
  obtain ⟨hplaceholder, harity, hsymbols⟩ := checkSelf_eq_ok_iff.1 h
  refine checkSelf_eq_ok_iff.2 ⟨?_, ?_, ?_⟩
  · rw [NodeKind.isPlaceholder_shift]
    exact fun hkind => hpoint hkind (hplaceholder hkind)
  · rw [NodeKind.arity?_shift]
    exact harity
  · rw [NodeKind.symbols_shift]
    exact List.forall_mem_map.2 fun symbol hsymbol => hwide _ (hsymbols symbol hsymbol)

theorem checkChild_shift {kind childKind : NodeKind} {child : Span} {previous solid : Option Span}
    (hwide : Holds count span wide)
    (h : checkChild kind span previous solid childKind child = .ok ()) :
    checkChild (kind.shift count) wide (previous.map (Span.shift count))
      (solid.map (Span.shift count)) (childKind.shift count) (child.shift count) = .ok () := by
  obtain ⟨hinside, hprevious, hsolid⟩ := checkChild_eq_ok_iff.1 h
  refine checkChild_eq_ok_iff.2 ⟨hwide child hinside, ?_, ?_⟩
  · intro other hother
    obtain ⟨before, hbefore, rfl⟩ := Option.map_eq_some_iff.1 hother
    exact Nat.add_le_add_left (hprevious before hbefore) count
  · rw [NodeKind.isPlaceholder_shift]
    intro hkind other hother
    obtain ⟨before, hbefore, rfl⟩ := Option.map_eq_some_iff.1 hother
    have hapart := hsolid hkind before hbefore
    simp only [Span.disjoint, Bool.or_eq_true, decide_eq_true_eq] at hapart ⊢
    exact hapart.imp (Nat.add_lt_add_left · count) (Nat.add_lt_add_left · count)

mutual

/-- A tree that is well laid out is so wherever it is. -/
theorem check_shift (node : Node) (h : node.check = .ok ()) :
    (node.shift count).check = .ok () := by
  match node with
  | ⟨kind, span, children, ownsSemicolon⟩ =>
    obtain ⟨hself, hchildren⟩ := check_eq_ok_iff.1 h
    have hlength : (shiftList count children).length = children.length := by
      rw [shiftList_eq, List.length_map]
    rw [shift, check_eq_ok_iff, hlength]
    refine ⟨checkSelf_shift holds_shift ?_ hself, ?_⟩
    · exact fun _ hpoint => congrArg (count + ·) hpoint
    · exact checkChildren_shift holds_shift none none children hchildren

theorem checkChildren_shift {kind : NodeKind} {span wide : Span} (hwide : Holds count span wide)
    (previous solid : Option Span) (children : List Node)
    (h : checkChildren kind span previous solid children = .ok ()) :
    checkChildren (kind.shift count) wide (previous.map (Span.shift count))
      (solid.map (Span.shift count)) (shiftList count children) = .ok () := by
  match children with
  | [] => rfl
  | child :: rest =>
    obtain ⟨hchild, hbelow, hrest⟩ := checkChildren_cons_eq_ok_iff.1 h
    have hsolid : (if (child.shift count).isPlaceholder then solid.map (Span.shift count)
        else some (child.shift count).span) =
          (if child.isPlaceholder then solid else some child.span).map (Span.shift count) := by
      rw [child.isPlaceholder_shift, child.span_shift]
      split <;> rfl
    rw [shiftList, checkChildren_cons_eq_ok_iff, hsolid, child.kind_shift, child.span_shift]
    exact ⟨checkChild_shift hwide hchild, check_shift child hbelow,
      checkChildren_shift hwide (some child.span) _ rest hrest⟩

end

/-- So is a tree that begins where the text does, if all but its root is moved. -/
theorem check_shiftBelow {root : Node} (hkind : root.kind.isPlaceholder = false)
    (hstart : root.start = 0) (h : root.check = .ok ()) :
    (root.shiftBelow count).check = .ok () := by
  obtain ⟨kind, span, children, ownsSemicolon⟩ := root
  obtain ⟨hself, hchildren⟩ := check_eq_ok_iff.1 h
  have hwide : Holds count span ⟨span.start, count + span.last⟩ := by
    intro inner hinner
    obtain ⟨-, hlast⟩ := Span.contains_iff.1 hinner
    refine Span.contains_iff.2 ⟨?_, Nat.add_le_add_left hlast count⟩
    exact Nat.le_trans (Nat.le_of_eq hstart) (Nat.zero_le _)
  rw [shiftBelow, check_eq_ok_iff, List.length_map, ← shiftList_eq]
  refine ⟨checkSelf_shift hwide ?_ hself, ?_⟩
  · intro hplaceholder
    rw [hkind] at hplaceholder
    cases hplaceholder
  · exact checkChildren_shift hwide none none children hchildren

end Moved

end Node

/-! ## Whole runs -/

/-- The span around the whole text becomes longer. -/
theorem Indent.span_moved (indent : Indent) : Span.ofBounds 0 indent.moved.size =
    ⟨(Span.ofBounds 0 indent.source.size).start,
      indent.width + (Span.ofBounds 0 indent.source.size).last⟩ := by
  have hsize := indent.size_pos
  have hlast : max (indent.width + indent.source.size - 1) 0 =
      indent.width + max (indent.source.size - 1) 0 := by omega
  rw [indent.size_moved]
  exact congrArg (Span.mk 0) hlast

namespace Session

/-- A recovery starts with a root that lies around the whole text. -/
theorem moved_initial (indent : Indent) (info : Option ModuleInfo) (strict : Bool) (uri : String) :
    (initial ⟨indent.source, info, strict⟩ uri).Moved indent.width
      (initial ⟨indent.moved, info, strict⟩ uri) where
  stack := congrArg (fun span => (⟨Node.leaf .root span, []⟩ : Stack)) indent.span_moved
  shelf := rfl
  skipsName := rfl
  warnings := rfl
  root := rfl

end Session

/-- The root of a recovered tree is the one that the recovery has started with. -/
theorem Program.root_of_recover {program : Program} {scope : Scope} {later : Session}
    (h : program.recover.outcome scope (.initial scope program.uri) = (.ok (), later)) :
    later.stack.root.kind = .root ∧
      later.stack.root.span = Span.ofBounds 0 scope.source.size := by
  have hframe := ((program.sound_recover False).kept scope (.initial scope program.uri)
    fun hfalse => hfalse.elim).frame
  obtain ⟨hopened, -⟩ := program.done_of_recover h
  rw [h] at hframe
  have hcurrent : later.stack.current = later.stack.root := by
    rw [Stack.current, hopened]
  rw [← hcurrent]
  exact ⟨hframe.kind, hframe.span⟩

/-- If a program is recovered without warnings, then so is the same program with blank space in
front of its text. The root lies around the whole of the longer text, and all nodes and symbols
below it are moved by as much as the text. -/
theorem blanks_in_front_move_the_tree (program : Program) (text blanks : String)
    (settings : Settings) (root : Node) (hnonempty : text ≠ "")
    (hblank : ∀ byte ∈ Text.encoded blanks, Text.isBlankByte byte = true)
    (h : (program.concretise text settings).result = .ok ⟨root, []⟩) :
    let count := blanks.utf8ByteSize
    ((program.shift count).concretise (blanks ++ text) settings).result =
      .ok ⟨{ root with
        span := Span.ofBounds 0 (blanks ++ text).utf8ByteSize
        children := root.children.map (Node.shift count) }, []⟩ := by
  intro count
  let indent : Indent := ⟨text, blanks, settings.mode, hnonempty, hblank⟩
  obtain ⟨later, hrun, -, hlater⟩ := program.ok_of_concretise h
  have hroot : later.stack.root = root := congrArg Concrete.root hlater.symm
  have hnone : later.warnings.toList = [] := congrArg Concrete.warnings hlater.symm
  obtain ⟨hkind, hspan⟩ := program.root_of_recover hrun
  rw [hroot] at hkind hspan
  -- with no token missed, the runs may be told apart by their texts alone
  have hstrict := program.outcome_of_unmissed hrun hnone true
  obtain ⟨_, later', hrun', hmoved, -⟩ := program.follows_recover program.info _ _ later ()
    (Session.moved_initial indent program.info true program.uri) hstrict
  have hnone' : later'.warnings.toList = [] := by rw [hmoved.warnings, hnone]
  have hlenient := (program.shift count).outcome_of_unmissed hrun' hnone' settings.strict
  have hconcrete : later'.concrete = ⟨root.shiftBelow count, []⟩ := by
    rw [Session.concrete, hnone', hmoved.stack, ← hroot]
    rfl
  have hresult : ((program.shift count).concretise (blanks ++ text) settings).result =
      later'.concrete.verdict settings.verify := Program.result_of_recover _ hlenient
  have hshift : root.shiftBelow count = { root with
      span := Span.ofBounds 0 (blanks ++ text).utf8ByteSize
      children := root.children.map (Node.shift count) } := by
    obtain ⟨kind, span, children, ownsSemicolon⟩ := root
    cases hkind
    cases hspan
    exact congrArg (Node.mk .root · _ _) (indent.span_moved).symm
  rw [hresult, hconcrete, ← hshift]
  rw [Program.result_of_recover _ hrun, ← hlater] at h
  refine Concrete.verdict_eq_ok_iff.2 ⟨rfl, fun hverify => ?_⟩
  refine Node.check_shiftBelow ?_ ?_ ((Concrete.verdict_eq_ok_iff.1 h).2 hverify)
  · rw [hkind]
    rfl
  · exact congrArg Span.start hspan

/-- A script whose first token is a keyword that is only found by looking back from the name of a
function. The slash in it begins a regular expression. -/
def Program.leadingFunction : Program :=
  ⟨"file:///test.js", ⟨⟨0, 40⟩, .synthetic,
    [.binding ⟨⟨9, 29⟩, ⟨⟨9, 10⟩, "f", false, false⟩,
        some (.functionDef ⟨⟨0, 29⟩, ⟨⟨9, 10⟩, "f", false, false⟩, .normal,
          [⟨⟨11, 12⟩, "a", false, false⟩], ⟨⟨14, 29⟩, .braced,
            [.returnValue ⟨16, 27⟩ (some (.literal ⟨23, 26⟩ .regex)) false]⟩,
          false, false, true, false⟩), .var, true⟩,
      .binding ⟨⟨34, 39⟩, ⟨⟨34, 35⟩, "b", false, false⟩,
        some (.ident ⟨⟨38, 39⟩, "f", false, false⟩), .var, false⟩]⟩, none⟩

/-- The tree of the script has twelve nodes. All of them but the root are moved by three. -/
theorem blanks_in_front_of_leadingFunction :
    let text := "function f(a) { return /a/; } var b = f;"
    let blanks := " \n\t"
    ∃ root, (Program.leadingFunction.concretise text Settings.unforgiving).result = .ok ⟨root, []⟩ ∧
      root.preorder.length = 12 ∧
      ((Program.leadingFunction.shift 3).concretise (blanks ++ text) Settings.unforgiving).result =
        .ok ⟨{ root with
          span := Span.ofBounds 0 43
          children := root.children.map (Node.shift 3) }, []⟩ := by
  intro text blanks
  let result := (Program.leadingFunction.concretise text Settings.unforgiving).result
  have hwarnings : result.toOption.map (·.warnings.length) = some 0 := by decide +kernel
  have hnodes : result.toOption.map (·.root.preorder.length) = some 12 := by decide +kernel
  have hblank : ∀ byte ∈ Text.encoded blanks, Text.isBlankByte byte = true := by decide +kernel
  cases hresult : result with
  | error failure =>
    rw [hresult] at hwarnings
    cases hwarnings
  | ok concrete =>
    obtain ⟨root, warnings⟩ := concrete
    rw [hresult] at hwarnings hnodes
    cases List.length_eq_zero_iff.1 (Option.some.inj hwarnings)
    refine ⟨root, hresult, Option.some.inj hnodes, ?_⟩
    exact blanks_in_front_move_the_tree Program.leadingFunction text blanks _ root (by decide)
      hblank hresult

end Concretion
