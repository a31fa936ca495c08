import Concretion.Proofs.Nesting.Rules
import Concretion.Proofs.Spelled
import Concretion.Proofs.Written.Bytes
import Concretion.Recovery.Rule.ModuleItems
import Mathlib.Data.List.SplitBy

/-!
# Imports and exports are nested trees

The statements that are known from the metadata of a module are never open. An import statement is
said to reach from its keyword to the end of the string behind it, and its specifiers are looked for
in between. The searches only see to it that a name begins in front of the string. It also ends
there as long as it does not run into the quote that the string begins with.

- `Text.hasQuote`, `ImportEntry.isUnquoted`: names without quotes.
- `Node.Between`: a node, made to cover its children, that lies in a window.
- `Rule.between_specifiers`: the specifiers lie between the keyword and the string.
- `Rule.nests_moduleItems`: the statements of a module among those of the program.
-/

namespace Concretion

open Recover

/-! ## Quotes -/

/-- Does the text have a quote in it? -/
def Text.hasQuote (text : String) : Bool := text.toList.any fun c => c == '\x27' || c == '\x22'

/-- Are the names that the entry is written with free of quotes? -/
def ImportEntry.isUnquoted (entry : ImportEntry) : Bool :=
  !Text.hasQuote entry.importName && !Text.hasQuote entry.boundName

theorem ImportEntry.isUnquoted_iff {entry : ImportEntry} : entry.isUnquoted ↔
    Text.hasQuote entry.importName = false ∧ Text.hasQuote entry.boundName = false := by
  rw [isUnquoted, Bool.and_eq_true, Bool.not_eq_true', Bool.not_eq_true']

/-- The bytes of the two quotes. -/
def Text.quoteBytes : List UInt8 := [0x27, 0x22]

theorem Text.notMem_pattern {text : String} (h : hasQuote text = false) {byte : UInt8}
    (hbyte : byte ∈ quoteBytes) : byte ∉ pattern text := by
  intro hmem
  rw [pattern_eq, bytesOf, List.mem_flatMap] at hmem
  obtain ⟨c, hc, hencoded⟩ := hmem
  have hquotes : ∀ code ∈ quoteBytes, ∃ d ∈ ['\x27', '\x22'],
      isAscii d ∧ UInt8.ofNat d.toNat = code :=
    List.forall_mem_cons.2 ⟨⟨'\x27', by simp, by decide⟩,
      List.forall_mem_singleton.2 ⟨'\x22', by simp, by decide⟩⟩
  have hplain := List.any_eq_false.1 h c hc
  refine notMem_of_mem_utf8EncodeChar hquotes ?_ hencoded hbyte
  intro hquote
  rcases List.mem_cons.1 hquote with rfl | hquote
  · exact hplain rfl
  · rw [List.mem_singleton.1 hquote] at hplain
    exact hplain rfl

namespace Source

variable {source : Source}

/-- A string that is found begins with a quote. -/
theorem byteAt_of_findString {content : String} {start finish : Nat} {path : Range}
    (h : source.findString content start finish = some path) :
    path.start < path.finish ∧
      ∃ quote ∈ Text.quoteBytes, source.byteAt path.start = some quote := by
  obtain ⟨found, hfind, rfl⟩ := Option.map_eq_some_iff.1 h
  have htest := Array.find?_some hfind
  simp only [isQuoted, Bool.and_eq_true, List.any_eq_true, beq_iff_eq] at htest
  obtain ⟨-, -, quote, hquote, hwritten⟩ := htest
  have hfirst : (source.bytes.extract found.start found.finish)[0]? = some quote := by
    rw [← Array.getElem?_toList, hwritten]
    rfl
  rw [Array.getElem?_extract] at hfirst
  split at hfirst
  · next hlt => exact ⟨by show found.start < found.finish; omega, quote, hquote, hfirst⟩
  · cases hfirst

/-- A word without quotes that stands in front of a quote ends there, too. -/
theorem le_of_wordMatchesAt {name : String} {alphabetic : Bool} {offset finish : Nat}
    {quote : UInt8}
    (hname : Text.hasQuote name = false) (hquote : quote ∈ Text.quoteBytes)
    (hbyte : source.byteAt finish = some quote) (hlt : offset < finish)
    (h : source.wordMatchesAt alphabetic (Text.pattern name) offset = true) :
    offset + name.utf8ByteSize ≤ finish := by
  by_contra hbeyond
  rw [wordMatchesAt, matchesAt, Bool.and_eq_true, Bool.and_eq_true] at h
  have hindex : finish - offset < (Text.pattern name).length := by
    show finish - offset < name.utf8ByteSize
    omega
  -- the quote would be one of the bytes of the name
  have hat := (startsAt_iff source).1 h.1.1 (finish - offset) hindex
  rw [Nat.add_sub_cancel' hlt.le, hbyte] at hat
  exact Text.notMem_pattern hname hquote (Option.some.inj hat ▸ List.getElem_mem hindex)

theorem le_of_findWord {name : String} {start finish offset : Nat} {quote : UInt8}
    (hname : Text.hasQuote name = false) (hquote : quote ∈ Text.quoteBytes)
    (hbyte : source.byteAt finish = some quote)
    (h : source.findWord name start finish = some offset) :
    offset + name.utf8ByteSize ≤ finish :=
  le_of_wordMatchesAt hname hquote hbyte (findWord_bounds h).2
    (Search.firstFrom_eq_some_iff.1 h).passes

end Source

/-! ## Specifiers -/

/-- A nested node that lies between two offsets, with its ends in order. -/
structure Node.Between (start finish : Nat) (node : Node) : Prop where
  nested : node.Nested
  low : start ≤ node.start
  ordered : node.start ≤ node.last
  high : node.last < finish

namespace Rule

variable {scope : Scope} {finish : Nat} {quote : UInt8}

section Specifiers

variable (hquote : quote ∈ Text.quoteBytes) (hbyte : scope.source.byteAt finish = some quote)

include hquote hbyte

theorem between_importedName {name : String} (hname : Text.hasQuote name = false) (start : Nat) :
    Nests scope (importedName name start finish)
      fun found => ∀ node ∈ found, node.Between start finish := by
  refine Nests.source.bind ?_
  rintro _ rfl
  refine (Nests.settle? _).bind fun found hfound => ?_
  cases found with
  | none =>
    refine .pure ?_
    rintro node ⟨⟩
  | some offset =>
    have hword : scope.source.findWord name start finish = some offset :=
      Source.locateWord_eq_ok_iff.1 (hfound offset rfl)
    refine (Nests.identifier _ _ _).bind fun node hnode => .pure ?_
    rintro _ ⟨⟩
    have hlast := Source.le_of_findWord hname hquote hbyte hword
    have hbounds := Source.findWord_bounds hword
    refine ⟨hnode.1, ?_, ?_, ?_⟩
    all_goals
      simp only [Node.start, Node.last, hnode.2, Span.ofBounds]
      omega

theorem between_namespaceSpecifier {entry : ImportEntry} (h : entry.isUnquoted) (start : Nat) :
    Nests scope (namespaceSpecifier entry start finish)
      fun found => ∀ node ∈ found, node.Between start finish := by
  have hname : Text.hasQuote entry.boundName = false := (ImportEntry.isUnquoted_iff.1 h).2
  have hnone : Nests scope (Pure.pure none : Recover (Option Node))
      fun found => ∀ node ∈ found, node.Between start finish := by
    refine .pure ?_
    rintro node ⟨⟩
  refine Nests.source.bind ?_
  rintro _ rfl
  refine (Nests.settle? _).bind fun found hfound => ?_
  cases found with
  | none => exact hnone
  | some offset =>
    obtain ⟨hlow, hhigh⟩ := Source.find_bounds (Source.locate_eq_ok_iff.1 (hfound offset rfl))
    refine (Nests.symbolAt _ _).bind fun star hstar => ?_
    refine (between_importedName hquote hbyte hname _).bind fun name hname => ?_
    cases name with
    | none => exact hnone
    | some name =>
      obtain ⟨hnested, hnameLow, hnameOrdered, hnameHigh⟩ := hname name rfl
      refine (Nests.mergeSpans _ _).bind fun span hspan => .pure ?_
      rintro _ ⟨⟩
      have hinside := (Span.contains_of_merge hspan).2
      obtain ⟨hordered, rfl⟩ := Span.make_eq_ok_iff.1 hspan
      -- the star is a single byte
      have hpoint : star.span = ⟨offset, offset⟩ := hstar
      rw [hpoint] at hnameLow
      simp only [Node.start, Node.last] at hnameLow hnameOrdered hnameHigh
      refine ⟨Node.nested_single hinside hnested, ?_, hordered, ?_⟩
      all_goals
        simp only [Node.start, Node.last, Node.branch, hpoint]
        omega

omit hquote hbyte in
/-- A specifier goes from its first name to its last one. -/
theorem between_specifierAround {first : Node} {second : Option Node} {start : Nat}
    (hfirst : first.Between start finish)
    (hsecond : ∀ node ∈ second, node.Between (first.last + 1) finish) :
    Nests scope (specifierAround first second) fun found => ∀ node ∈ found,
      node.Between start finish := by
  obtain ⟨hnested, hlow, hordered, hhigh⟩ := hfirst
  refine (Nests.mergeSpans _ _).bind fun span hspan => .pure ?_
  rintro _ ⟨⟩
  obtain ⟨hinside, hother⟩ := Span.contains_of_merge hspan
  have haround : Node.Around span (first :: second.toList) := by
    refine List.forall_mem_cons.2 ⟨⟨hinside, hnested⟩, fun child hchild => ?_⟩
    have hsome := Option.mem_toList.1 hchild
    rw [hsome, Option.getD_some] at hother
    exact ⟨hother, (hsecond child hsome).nested⟩
  have hsecondBounds :
      start ≤ (second.getD first).start ∧ (second.getD first).last < finish := by
    cases second with
    | none => exact ⟨hlow, hhigh⟩
    | some second =>
      obtain ⟨-, hbehind, -, hlast⟩ := hsecond second rfl
      exact ⟨hlow.trans (hordered.trans (Nat.le_of_succ_le hbehind)), hlast⟩
  obtain ⟨hends, rfl⟩ := Span.make_eq_ok_iff.1 hspan
  simp only [Node.start, Node.last] at hlow hhigh hsecondBounds
  refine ⟨Node.nested_iff.2 haround, ?_, hends, ?_⟩
  all_goals
    simp only [Node.start, Node.last, Node.branch]
    omega

theorem between_nameSpecifier {entry : ImportEntry} (h : entry.isUnquoted) (start : Nat) :
    Nests scope (nameSpecifier entry start finish)
      fun found => ∀ node ∈ found, node.Between start finish := by
  have hbound : Text.hasQuote entry.boundName = false := (ImportEntry.isUnquoted_iff.1 h).2
  have hwritten : Text.hasQuote (if entry.isDefault then entry.boundName else entry.importName) =
      false := by
    split
    · exact hbound
    · exact (ImportEntry.isUnquoted_iff.1 h).1
  rw [nameSpecifier]
  generalize (if entry.isDefault then entry.boundName else entry.importName) = written at hwritten ⊢
  refine (between_importedName hquote hbyte hwritten _).bind fun first hfirst => ?_
  cases first with
  | none =>
    refine .pure ?_
    rintro node ⟨⟩
  | some first =>
    have hbetween := hfirst first rfl
    dsimp only
    split
    · refine between_specifierAround hbetween ?_
      rintro node ⟨⟩
    · exact (between_importedName hquote hbyte hbound _).bind
        fun second hsecond => between_specifierAround hbetween hsecond

/-- Each specifier is looked for behind the one before, and that one is not empty. -/
theorem between_specifiers {entries : List ImportEntry} (h : ∀ entry ∈ entries, entry.isUnquoted)
    {low start : Nat} (hstart : low ≤ start) :
    Nests scope (specifiers finish entries start)
      fun nodes => ∀ node ∈ nodes, node.Between low finish := by
  induction entries generalizing start with
  | nil => exact .pure (List.forall_mem_nil _)
  | cons entry rest ih =>
    obtain ⟨hentry, hrest⟩ := List.forall_mem_cons.1 h
    have hfound : ∀ found : Option Node, (∀ node ∈ found, node.Between start finish) →
        Nests scope (specifiersBehind (specifiers finish rest) start found)
          fun nodes => ∀ node ∈ nodes, node.Between low finish := by
      intro found hbetween
      cases found with
      | none => exact ih hrest hstart
      | some specifier =>
        obtain ⟨hnested, hlow, hordered, hhigh⟩ := hbetween specifier rfl
        refine (ih hrest (by omega)).bind fun nodes hnodes => .pure ?_
        exact List.forall_mem_cons.2 ⟨⟨hnested, by omega, hordered, hhigh⟩, hnodes⟩
    rw [specifiers]
    split
    · exact (between_namespaceSpecifier hquote hbyte hentry start).bind hfound
    · exact (between_nameSpecifier hquote hbyte hentry start).bind hfound

end Specifiers

/-! ## Statements -/

/-- The keyword is no empty word, and the string behind it begins with a quote. -/
theorem nests_moduleStatement (keyword context request : String) (cursor : Nat) :
    Nests scope (moduleStatement keyword context request cursor) fun found =>
      ∀ place ∈ found, place.1.span.Ordered ∧ place.2.start < place.2.finish ∧
        ∃ quote ∈ Text.quoteBytes, scope.source.byteAt place.2.start = some quote := by
  have hnone : Nests scope (Pure.pure none : Recover (Option (Symbol × Range))) fun found =>
      ∀ place ∈ found, place.1.span.Ordered ∧ place.2.start < place.2.finish ∧
        ∃ quote ∈ Text.quoteBytes, scope.source.byteAt place.2.start = some quote := by
    refine .pure ?_
    rintro place ⟨⟩
  refine Nests.source.bind ?_
  rintro _ rfl
  refine (Nests.settle? _).bind fun path hpath => ?_
  cases path with
  | none => exact hnone
  | some path =>
    have hstring := Source.byteAt_of_findString (Source.locateString_eq_ok_iff.1 (hpath path rfl))
    refine (Nests.settle? _).bind fun offset _ => ?_
    cases offset with
    | none => exact hnone
    | some offset =>
      refine (Nests.symbolAt _ _).bind fun symbol hsymbol => .pure ?_
      rintro _ ⟨⟩
      refine ⟨?_, hstring⟩
      rw [hsymbol]
      show offset ≤ offset + max (Token.keyword keyword).length 1 - 1
      omega

/-- An import statement lies around its specifiers, which stand between keyword and string. -/
theorem nests_importStatement (request : String) {entries : List ImportEntry}
    (h : ∀ entry ∈ entries, entry.isUnquoted) (cursor : Nat) :
    Nests scope (importStatement request entries cursor)
      fun found => ∀ node ∈ found.1, node.Nested := by
  refine (nests_moduleStatement _ _ _ _).bind fun place hplace => ?_
  cases place with
  | none =>
    refine .pure ?_
    rintro node ⟨⟩
  | some place =>
    obtain ⟨keyword, path⟩ := place
    obtain ⟨hkeyword, hpath, quote, hquote, hbyte⟩ : keyword.span.start ≤ keyword.span.last ∧
        path.start < path.finish ∧ _ := hplace (keyword, path) rfl
    refine (between_specifiers hquote hbyte h (Nat.le_refl _)).bind fun names hnames => ?_
    refine (Nests.symbolOver _ _).bind fun symbol _ => ?_
    refine (Nests.endsWithSemicolon _).bind fun flag _ => ?_
    refine .pure ?_
    rintro _ ⟨⟩
    refine Node.nested_iff.2 fun name hname => ?_
    obtain ⟨hnested, hlow, -, hhigh⟩ := hnames name hname
    refine ⟨Span.contains_iff.2 ?_, hnested⟩
    simp only [Node.start, Node.last] at hlow hhigh
    simp only [Span.ofBounds]
    omega

theorem nests_importGroups {groups : List (List ImportEntry)}
    (h : ∀ entries ∈ groups, ∀ entry ∈ entries, entry.isUnquoted) (cursor : Nat) :
    Nests scope (importGroups groups cursor) fun nodes => ∀ node ∈ nodes, node.Nested := by
  induction groups generalizing cursor with
  | nil => exact .pure (List.forall_mem_nil _)
  | cons entries rest ih =>
    obtain ⟨hentries, hrest⟩ := List.forall_mem_cons.1 h
    refine (nests_importStatement _ hentries _).bind fun found hfound => ?_
    refine (ih hrest _).bind fun nodes hnodes => .pure ?_
    refine List.forall_mem_append.2 ⟨fun node hnode => ?_, hnodes⟩
    exact hfound node (Option.mem_toList.1 hnode)

theorem nests_imports {entries : List ImportEntry} (h : ∀ entry ∈ entries, entry.isUnquoted) :
    Nests scope (imports entries) fun nodes => ∀ node ∈ nodes, node.Nested := by
  refine nests_importGroups (fun group hgroup entry hentry => h entry ?_) 0
  rw [← List.flatten_splitBy (fun a b : ImportEntry => a.request == b.request) entries]
  exact List.mem_flatten_of_mem hgroup hentry

theorem nests_starExports (entries : List ExportEntry) (cursor : Nat) :
    Nests scope (starExports entries cursor) fun nodes => ∀ node ∈ nodes, node.Nested := by
  induction entries generalizing cursor with
  | nil => exact .pure (List.forall_mem_nil _)
  | cons entry rest ih =>
    unfold starExports
    split
    · exact ih cursor
    · refine (nests_moduleStatement _ _ _ _).bind fun place _ => ?_
      cases place with
      | none => exact ih cursor
      | some place =>
        obtain ⟨keyword, path⟩ := place
        refine (Nests.symbolOver _ _).bind fun symbol _ => ?_
        refine (Nests.endsWithSemicolon _).bind fun flag _ => ?_
        refine (ih _).bind fun nodes hnodes => .pure (List.forall_mem_cons.2 ⟨?_, hnodes⟩)
        exact Node.nested_iff.2 (List.forall_mem_nil _)

/-- The statements known from the metadata go among the children of the root. -/
theorem nests_moduleItems {info : ModuleInfo} (h : ∀ entry ∈ info.imports, entry.isUnquoted) :
    StaysNested scope (moduleItems info) := by
  refine (nests_imports h).bind fun imports himports => ?_
  refine (nests_starExports _ _).bind fun exports hexports => ?_
  dsimp only
  split
  · refine (Nests.note _).andThen (Nests.modifyStack fun stack hstack => hstack.setChildren ?_)
    intro node hnode
    rcases List.mem_append.1 (List.mem_mergeSort.1 hnode) with hnode | hnode
    · exact hstack.children node hnode
    · exact List.forall_mem_append.2 ⟨himports, hexports⟩ node hnode
  · exact .pure trivial

end Rule

end Concretion
