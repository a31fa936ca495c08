import Concretion.Proofs.Nesting.Items
import Concretion.Proofs.Paid.Steps
import Concretion.Proofs.Trivia
import Concretion.Proofs.Written.Valid

/-!
# Statements known from the metadata of a module

Import statements and star exports are found by searching for names, in windows that move forward
only when something has been found. Whatever the text is and whatever names are asked for, what
comes of it is well laid out: each statement passes the check, and so they do side by side.

- `Node.Row`: nodes that pass the check and lie one behind the other in a window.
- `Finds`: computations that always succeed and leave the open nodes alone.
- `Node.NamesModule`: a statement that names a module, with its specifiers in front of the name.
- `Node.Series`: the statements that a search comes to, from an offset on.
- `Rule.finds_specifiers`, `Rule.finds_importGroups`, `Rule.finds_starExports`: the searches.
- `moduleItems_are_laid_out`: all statements of a module, and where they go in the tree.
-/

namespace Concretion

open Recover Text

/-! ## Rows of nodes -/

/-- The nodes pass the check and lie one behind the other, from an offset on and in front of another
one. -/
inductive Node.Row (finish : Nat) : Nat → List Node → Prop where
  | nil (start : Nat) : Row finish start []
  | cons {start : Nat} {node : Node} {range : Range} {nodes : List Node} (hnode : node.Solid range)
      (hstart : start ≤ range.start) (hfinish : range.finish ≤ finish)
      (hrest : Row finish range.finish nodes) : Row finish start (node :: nodes)

namespace Node

/-- A node that passes the check lies between two offsets. -/
def SolidIn (start finish : Nat) (node : Node) : Prop :=
  ∃ range, node.Solid range ∧ start ≤ range.start ∧ range.finish ≤ finish

theorem Solid.start_eq {node : Node} {range : Range} (h : node.Solid range) :
    node.start = range.start := by
  rw [Node.start, h.span]
  rfl

/-- Behind the last offset of a node its range is over. -/
theorem Solid.finish_eq {node : Node} {range : Range} (h : node.Solid range) :
    node.last + 1 = range.finish := by
  have hnonempty := h.nonempty
  rw [h.last]
  omega

namespace Row

variable {start finish : Nat} {nodes : List Node}

theorem bounds (h : Row finish start nodes) :
    ∀ node ∈ nodes, start ≤ node.start ∧ node.last < finish := by
  induction h with
  | nil start => exact List.forall_mem_nil _
  | @cons start node range nodes hnode hstart hfinish _ ih =>
    have hnonempty := hnode.nonempty
    have hends := hnode.finish_eq
    refine List.forall_mem_cons.2 ⟨⟨hnode.start_eq ▸ hstart, by omega⟩, fun other hother => ?_⟩
    obtain ⟨hlow, hhigh⟩ := ih other hother
    exact ⟨by omega, hhigh⟩

theorem pairwise (h : Row finish start nodes) : nodes.Pairwise fun a b => a.last < b.start := by
  induction h with
  | nil start => exact .nil
  | @cons start node range nodes hnode hstart hfinish hrest ih =>
    refine .cons (fun other hother => ?_) ih
    have hbehind := (hrest.bounds other hother).1
    have hends := hnode.finish_eq
    omega

theorem check (h : Row finish start nodes) : ∀ node ∈ nodes, node.check = .ok () := by
  induction h with
  | nil start => exact List.forall_mem_nil _
  | cons hnode _ _ _ ih => exact List.forall_mem_cons.2 ⟨hnode.check, ih⟩

/-- As the children of a node around them they pass the check, too. -/
theorem checkChildren {kind : NodeKind} {range : Range} {previous solid : Option Span}
    (h : Row finish start nodes) (hstart : range.start ≤ start) (hfinish : finish ≤ range.finish)
    (hprevious : EndsBefore start previous) (hsolid : EndsBefore start solid) :
    Node.checkChildren kind range.span previous solid nodes = .ok () := by
  induction h generalizing previous solid with
  | nil start => rfl
  | cons hnode hlow hhigh _ ih =>
    refine checkChildren_solid hnode (hstart.trans hlow) (hhigh.trans hfinish) (hprevious.mono hlow)
      (hsolid.mono hlow) ?_
    have hbehind := endsBefore_range hnode.nonempty (Nat.le_refl _)
    have hnonempty := hnode.nonempty
    exact ih (by omega) hbehind hbehind

end Row

end Node

/-! ## Searches -/

namespace Source

variable {source : Source}

/-- The symbol that has the text of a span as its value. -/
def symbolOver (source : Source) (kind : TokenKind) (span : Span) : Symbol :=
  ⟨kind, span, (source.slice span.start (span.last + 1)).getD ""⟩

/-- An empty word does not stand in front of a byte that continues a character, as that would be
one of a word. -/
theorem isBoundary_of_emptyWord {offset : Nat} (hsize : offset < source.size)
    (h : source.wordMatchesAt (isAlphabetic "") (pattern "") offset = true) :
    source.isBoundary offset = true := by
  obtain ⟨b, hb⟩ : ∃ b, source.bytes[offset]? = some b := ⟨_, Array.getElem?_eq_getElem hsize⟩
  have hword : isWordByte b = false := by
    have hbehind := (Bool.and_eq_true_iff.1 (Bool.and_eq_true_iff.1 h).2).2
    have hbyte : source.byteAt (offset + (pattern "").length) = some b := hb
    rw [hbyte] at hbehind
    simpa using hbehind
  have hfirst : isContinuation b = false := by
    by_contra hcontinues
    rw [Bool.not_eq_false, isContinuation, Bool.and_eq_true, decide_eq_true_eq] at hcontinues
    simp [isWordByte, hcontinues.1] at hword
  simp [Source.isBoundary, Text.isBoundary, hb, hfirst]

/-- Where a word stands, no character is cut in two, not even if the word is empty. -/
theorem rangeSpan_of_findWord {name : String} {start finish offset : Nat}
    (h : source.findWord name start finish = some offset) :
    source.rangeSpan offset (offset + name.utf8ByteSize) =
      .ok (Span.ofBounds offset (offset + name.utf8ByteSize)) := by
  have hfirst := Search.firstFrom_eq_some_iff.1 h
  have hmatch := hfirst.passes
  by_cases hempty : name = ""
  · subst hempty
    have hsize : offset < source.size := Nat.lt_of_lt_of_le hfirst.lt_stop (Nat.min_le_right _ _)
    have hboundary := isBoundary_of_emptyWord hsize hmatch
    have hfits : (offset ≤ offset + "".utf8ByteSize && offset + "".utf8ByteSize ≤ source.size &&
        source.isBoundary offset && source.isBoundary (offset + "".utf8ByteSize)) = true := by
      rw [show offset + "".utf8ByteSize = offset from rfl, hboundary]
      simpa using hsize.le
    rw [rangeSpan, if_pos hfits]
  · have hne : name.toList ≠ [] := fun hnil => hempty (String.toList_eq_nil_iff.1 hnil)
    obtain ⟨-, before, behind, htext, hwidth, -⟩ := (wordMatchesAt_iff hne).1 hmatch
    have hhas : source.Has offset name.toList := ⟨before, behind, htext, hwidth⟩
    rw [utf8ByteSize_eq]
    exact hhas.rangeSpan

end Source

namespace Recover

variable {α β : Type} {scope : Scope}

/-- The computation succeeds in every session, and leaves alone what is open. -/
def Finds (scope : Scope) (action : Recover α) (result : α → Prop) : Prop :=
  ∀ session, ∃ value last, action.outcome scope session = (.ok value, last) ∧
    last.stack = session.stack ∧ result value

namespace Finds

theorem pure {value : α} {result : α → Prop} (h : result value) :
    Finds scope (Pure.pure value) result :=
  fun session => ⟨value, session, rfl, rfl, h⟩

theorem bind {action : Recover α} {next : α → Recover β} {result : α → Prop} {last : β → Prop}
    (h : Finds scope action result)
    (hnext : ∀ value, result value → Finds scope (next value) last) :
    Finds scope (action >>= next) last := by
  intro session
  obtain ⟨value, middle, hrun, hstack, hvalue⟩ := h session
  obtain ⟨final, after, hrun', hstack', hfinal⟩ := hnext value hvalue middle
  exact ⟨final, after, (outcome_bind_ok hrun).trans hrun', hstack'.trans hstack, hfinal⟩

theorem source : Finds scope source (· = scope.source) :=
  fun session => ⟨_, session, rfl, rfl, rfl⟩

theorem orFail {found : Except Failure α} {value : α} (h : found = .ok value) :
    Finds scope (orFail found) (· = value) := by
  subst h
  exact pure rfl

/-- If tokens may be missed, then nothing that is looked for ends the recovery. -/
theorem settle? (hlenient : scope.strict = false) (found : Except Missing α) :
    Finds scope (settle? found) fun value => ∀ place ∈ value, found = .ok place := by
  intro session
  cases found with
  | ok place =>
    refine ⟨some place, session, rfl, rfl, ?_⟩
    rintro _ ⟨⟩
    rfl
  | error missing =>
    have hreport := outcome_report missing scope session
    rw [if_neg (Bool.eq_false_iff.1 hlenient)] at hreport
    refine ⟨none, session.lacking missing, outcome_bind_ok hreport, rfl, ?_⟩
    rintro place ⟨⟩

theorem symbolAt (token : Token) (start : Nat) :
    Finds scope (symbolAt token start) (· = token.at start) :=
  fun session => ⟨_, _, outcome_symbolAt token start scope session, rfl, rfl⟩

theorem symbolOver (kind : TokenKind) (span : Span) :
    Finds scope (symbolOver kind span)
      (· = scope.source.symbolOver kind span) :=
  fun _ => ⟨_, _, rfl, rfl, rfl⟩

theorem endsWithSemicolon (finish : Nat) :
    Finds scope (endsWithSemicolon finish) fun _ => True :=
  fun session => ⟨_, session, rfl, rfl, trivial⟩

/-- The least span around two ranges, one of which starts and ends in front of the other. -/
theorem mergeSpans {a b : Range} (hb : b.start < b.finish) (hstart : a.start ≤ b.start)
    (hfinish : a.finish ≤ b.finish) :
    Finds scope (mergeSpans a.span b.span) (· = Range.span ⟨a.start, b.finish⟩) := by
  have hmerge : a.span.merge b.span = .ok (Range.span ⟨a.start, b.finish⟩) := by
    have hordered : a.span.Ordered := Span.ordered_ofBounds _ _
    rw [Span.merge_of_ordered (.inl hordered)]
    simp only [Range.span, Span.ofBounds, Except.ok.injEq, Span.mk.injEq]
    omega
  refine orFail ?_
  rw [hmerge]
  rfl

theorem identifier {start finish : Nat} {span : Span} (name : String)
    (h : scope.source.rangeSpan start finish = .ok span) :
    Finds scope (identifier start finish name)
      (· = .leaf (.identifier ⟨.identifier, span, name⟩) span) := by
  intro session
  have hspan : (rangeSpan start finish).outcome scope session = (.ok span, session) := by
    rw [rangeSpan, outcome_bind_ok (outcome_source scope session), h]
    rfl
  refine ⟨_, { session with names := session.names.enter name }, ?_, rfl, rfl⟩
  rw [Recover.identifier, outcome_bind_ok hspan]
  rfl

end Finds

end Recover

/-! ## Specifiers -/

open Node

/-- The node of a name lies where the name is, even if there is nothing of it. -/
theorem Node.solid_identifier (offset count : Nat) (name : String) :
    (leaf (.identifier ⟨.identifier, .ofBounds offset (offset + count), name⟩)
      (.ofBounds offset (offset + count))).Solid ⟨offset, offset + max count 1⟩ := by
  have hspan : Span.ofBounds offset (offset + count) =
      Range.span ⟨offset, offset + max count 1⟩ := by
    simp only [Range.span, Span.ofBounds, Span.mk.injEq, true_and]
    omega
  rw [hspan]
  exact solid_leaf (by show offset < offset + max count 1; omega) rfl rfl
    (List.forall_mem_singleton.2 rfl)

/-- The star of a namespace import is a single byte. -/
theorem Token.span_star (offset : Nat) :
    (Token.star.at offset).span = Range.span ⟨offset, offset + 1⟩ := by
  show (⟨offset, offset + max 1 1 - 1⟩ : Span) = ⟨offset, max (offset + 1 - 1) offset⟩
  simp only [Span.mk.injEq, true_and]
  omega

/-- The specifier of a namespace import reaches from its star to its name. -/
theorem Node.solid_namespace {name : Node} {range : Range} {offset : Nat} (h : name.Solid range)
    (hbehind : offset + 1 ≤ range.start) :
    (branch (.importSpecifier (some (Token.star.at offset))) (Range.span ⟨offset, range.finish⟩)
      [name]).Solid ⟨offset, range.finish⟩ := by
  have hnonempty := h.nonempty
  refine solid_branch (by show offset < range.finish; omega) rfl rfl
    (List.forall_mem_singleton.2 ?_) ?_
  · rw [Token.span_star]
    simp only [Range.span, Span.ofBounds]
    omega
  · exact checkChildren_solid h (by show offset ≤ _; omega) (Nat.le_refl _)
      (endsBefore_none _) (endsBefore_none _) rfl

/-- The names of a specifier are one node or two in a row. The last one ends it. -/
theorem Node.exists_row_of_names {first : Node} {second : Option Node} {range : Range}
    {finish : Nat} (hfirst : first.Solid range) (hfinish : range.finish ≤ finish)
    (hsecond : ∀ node ∈ second, node.SolidIn (first.last + 1) finish) :
    ∃ other : Range, (second.getD first).span = other.span ∧ other.start < other.finish ∧
      range.start ≤ other.start ∧ range.finish ≤ other.finish ∧ other.finish ≤ finish ∧
        Row other.finish range.start (first :: second.toList) := by
  have hnonempty := hfirst.nonempty
  cases second with
  | none =>
    exact ⟨range, hfirst.span, hnonempty, Nat.le_refl _, Nat.le_refl _, hfinish,
      .cons hfirst (Nat.le_refl _) (Nat.le_refl _) (.nil _)⟩
  | some second =>
    obtain ⟨other, hsolid, hbehind, hinside⟩ := hsecond second rfl
    have hother := hsolid.nonempty
    rw [hfirst.finish_eq] at hbehind
    exact ⟨other, hsolid.span, hother, by omega, by omega, hinside,
      .cons hfirst (Nat.le_refl _) (by omega) (.cons hsolid hbehind (Nat.le_refl _) (.nil _))⟩

namespace Rule

variable {scope : Scope} {finish : Nat} {quote : UInt8}

/-- The specifier around the names passes the check as they do. -/
theorem finds_specifierAround {first : Node} {second : Option Node} {start : Nat}
    (hfirst : first.SolidIn start finish)
    (hsecond : ∀ node ∈ second, node.SolidIn (first.last + 1) finish) :
    Finds scope (specifierAround first second)
      fun found => ∀ node ∈ found, Node.SolidIn start finish node := by
  obtain ⟨range, hsolid, hstart, hfinish⟩ := hfirst
  have hnonempty := hsolid.nonempty
  obtain ⟨other, hother, hend, hlow, hhigh, hlast, hrow⟩ :=
    exists_row_of_names hsolid hfinish hsecond
  rw [specifierAround, hsolid.span, hother]
  refine (Finds.mergeSpans hend hlow hhigh).bind ?_
  rintro _ rfl
  refine .pure ?_
  rintro _ ⟨⟩
  refine ⟨⟨range.start, other.finish⟩, ?_, hstart, hlast⟩
  exact solid_branch (by show range.start < other.finish; omega) rfl rfl (List.forall_mem_nil _)
    (hrow.checkChildren (Nat.le_refl _) (Nat.le_refl _) (endsBefore_none _) (endsBefore_none _))

section Specifiers

variable (hlenient : scope.strict = false) (hquote : quote ∈ quoteBytes)
  (hbyte : scope.source.byteAt finish = some quote)

include hlenient hquote hbyte

theorem finds_importedName {name : String} (hname : hasQuote name = false) (start : Nat) :
    Finds scope (importedName name start finish)
      fun found => ∀ node ∈ found, node.SolidIn start finish := by
  refine Finds.source.bind ?_
  rintro _ rfl
  refine (Finds.settle? hlenient _).bind fun found hfound => ?_
  cases found with
  | none =>
    refine .pure ?_
    rintro node ⟨⟩
  | some offset =>
    have hword : scope.source.findWord name start finish = some offset :=
      Source.locateWord_eq_ok_iff.1 (hfound offset rfl)
    have hlast := Source.le_of_findWord hname hquote hbyte hword
    have hbounds := Source.findWord_bounds hword
    refine (Finds.identifier name (Source.rangeSpan_of_findWord hword)).bind ?_
    rintro _ rfl
    refine .pure ?_
    rintro _ ⟨⟩
    refine ⟨_, solid_identifier offset name.utf8ByteSize name, hbounds.1, ?_⟩
    show offset + max name.utf8ByteSize 1 ≤ finish
    omega

theorem finds_namespaceSpecifier {entry : ImportEntry} (h : entry.isUnquoted) (start : Nat) :
    Finds scope (namespaceSpecifier entry start finish)
      fun found => ∀ node ∈ found, node.SolidIn start finish := by
  have hname : hasQuote entry.boundName = false := (ImportEntry.isUnquoted_iff.1 h).2
  have hnone : Finds scope (Pure.pure none : Recover (Option Node))
      fun found => ∀ node ∈ found, node.SolidIn start finish := by
    refine .pure ?_
    rintro node ⟨⟩
  refine Finds.source.bind ?_
  rintro _ rfl
  refine (Finds.settle? hlenient _).bind fun found hfound => ?_
  cases found with
  | none => exact hnone
  | some offset =>
    obtain ⟨hlow, -⟩ := Source.find_bounds (Source.locate_eq_ok_iff.1 (hfound offset rfl))
    refine (Finds.symbolAt _ _).bind ?_
    rintro _ rfl
    refine (finds_importedName hlenient hquote hbyte hname _).bind fun name hname => ?_
    cases name with
    | none => exact hnone
    | some name =>
      obtain ⟨range, hsolid, hstart, hfinish⟩ := hname name rfl
      have hnonempty := hsolid.nonempty
      have hbehind : offset + 1 ≤ range.start := by
        rw [Token.span_star] at hstart
        simp only [Range.span, Span.ofBounds] at hstart
        omega
      dsimp only
      rw [Token.span_star, hsolid.span]
      refine (Finds.mergeSpans hnonempty (by show offset ≤ _; omega)
        (by show offset + 1 ≤ _; omega)).bind ?_
      rintro _ rfl
      refine .pure ?_
      rintro _ ⟨⟩
      exact ⟨⟨offset, range.finish⟩, solid_namespace hsolid hbehind, hlow, hfinish⟩

theorem finds_nameSpecifier {entry : ImportEntry} (h : entry.isUnquoted) (start : Nat) :
    Finds scope (nameSpecifier entry start finish)
      fun found => ∀ node ∈ found, node.SolidIn start finish := by
  obtain ⟨himport, hbound⟩ := ImportEntry.isUnquoted_iff.1 h
  have hwritten : hasQuote (if entry.isDefault then entry.boundName else entry.importName) =
      false := by
    split
    · exact hbound
    · exact himport
  rw [nameSpecifier]
  generalize (if entry.isDefault then entry.boundName else entry.importName) = written at hwritten ⊢
  refine (finds_importedName hlenient hquote hbyte hwritten _).bind fun first hfirst => ?_
  cases first with
  | none =>
    refine .pure ?_
    rintro node ⟨⟩
  | some first =>
    have hsolid := hfirst first rfl
    dsimp only
    split
    · have hnone : ∀ node ∈ (none : Option Node), node.SolidIn (first.last + 1) finish := by
        rintro node ⟨⟩
      exact finds_specifierAround hsolid hnone
    · exact (finds_importedName hlenient hquote hbyte hbound _).bind
        fun second hsecond => finds_specifierAround hsolid hsecond

/-- Each specifier is looked for behind the one before. -/
theorem finds_specifiers {entries : List ImportEntry} (h : ∀ entry ∈ entries, entry.isUnquoted)
    (start : Nat) : Finds scope (specifiers finish entries start) (Row finish start) := by
  induction entries generalizing start with
  | nil => exact .pure (.nil start)
  | cons entry rest ih =>
    obtain ⟨hentry, hrest⟩ := List.forall_mem_cons.1 h
    have hfound : ∀ found : Option Node, (∀ node ∈ found, node.SolidIn start finish) →
        Finds scope (specifiersBehind (specifiers finish rest) start found) (Row finish start) := by
      intro found hsolid
      cases found with
      | none => exact ih hrest start
      | some specifier =>
        obtain ⟨range, hsolid, hstart, hfinish⟩ := hsolid specifier rfl
        refine (ih hrest (specifier.last + 1)).bind fun nodes hnodes => .pure ?_
        rw [hsolid.finish_eq] at hnodes
        exact .cons hsolid hstart hfinish hnodes
    rw [specifiers]
    split
    · exact (finds_namespaceSpecifier hlenient hquote hbyte hentry start).bind hfound
    · exact (finds_nameSpecifier hlenient hquote hbyte hentry start).bind hfound

end Specifiers

end Rule

/-! ## Statements -/

/-- The symbol is a string literal of the text, with the content between its quotes. -/
structure Symbol.Quotes (symbol : Symbol) (source : Source) (content : String) : Prop where
  kind : symbol.kind = .string
  literal : ⟨.literal, symbol.span.start, symbol.span.last + 1⟩ ∈ source.trivia
  written : source.slice symbol.span.start (symbol.span.last + 1) = some symbol.value
  content : ∃ quote ∈ ["\x27", "\x22"], symbol.value = quote ++ content ++ quote

/-- The node is a statement that names a module. It goes from its keyword to that name, and its
specifiers lie in between, one behind the other. -/
structure Node.NamesModule (node : Node) (source : Source) (kind : Symbol → Symbol → NodeKind)
    (request : String) (keyword path : Symbol) : Prop where
  kind : node.kind = kind keyword path
  span : node.span = ⟨keyword.span.start, path.span.last⟩
  quotes : path.Quotes source request
  between : ∀ specifier ∈ node.children,
    keyword.span.last < specifier.start ∧ specifier.last < path.span.start
  apart : node.children.Pairwise fun a b => a.last < b.start

namespace Source

variable {source : Source}

/-- A string that is found is a literal of the text, with nothing else between its quotes. -/
theorem quotes_of_findString {content : String} {start finish : Nat} {path : Range}
    (h : source.findString content start finish = some path) :
    start ≤ path.start ∧ path.finish ≤ source.size ∧
      (source.symbolOver .string path.span).Quotes source content := by
  obtain ⟨trivia, hfind, rfl⟩ := Option.map_eq_some_iff.1 h
  have hmem : trivia ∈ source.trivia := Array.mem_of_find?_eq_some hfind
  have htest := Array.find?_some hfind
  simp only [isQuoted, Bool.and_eq_true, List.any_eq_true, beq_iff_eq, decide_eq_true_eq] at htest
  obtain ⟨⟨hstart, -⟩, hkind, quote, hquote, hwritten⟩ := htest
  obtain ⟨hnonempty, hinside⟩ := source.trivia_inside hmem
  obtain ⟨chars, hhas, hfinish⟩ := source.has_of_mem_trivia hmem
  -- the characters of the literal are the quotes and the content
  obtain ⟨text, htext, hbytes⟩ : ∃ text ∈ ["\x27", "\x22"], bytesOf text.toList = [quote] := by
    rcases List.mem_cons.1 hquote with rfl | hquote
    · exact ⟨"\x27", by simp, by decide⟩
    · rw [List.mem_singleton.1 hquote]
      exact ⟨"\x22", by simp, by decide⟩
  have hchars : chars = (text ++ content ++ text).toList := by
    rw [← bytesOf_inj, ← hhas.extract, ← hfinish, hwritten, pattern_eq, String.toList_append,
      String.toList_append, bytesOf_append, bytesOf_append, hbytes]
    rfl
  have hlast : (Span.ofBounds trivia.start trivia.finish).last + 1 = trivia.finish := by
    simp only [Span.ofBounds]
    omega
  have hslice : source.slice trivia.start
      ((Span.ofBounds trivia.start trivia.finish).last + 1) = some (text ++ content ++ text) := by
    rw [hlast, hfinish, hhas.slice, hchars, String.ofList_toList]
  have hsymbol : source.symbolOver .string (Range.span ⟨trivia.start, trivia.finish⟩) =
      ⟨.string, .ofBounds trivia.start trivia.finish, text ++ content ++ text⟩ :=
    congrArg (fun value => Symbol.mk .string _ (Option.getD value "")) hslice
  rw [hsymbol]
  refine ⟨hstart, hinside, rfl, ?_, hslice, text, htext, rfl⟩
  have hsame : (⟨.literal, trivia.start, trivia.finish⟩ : Trivia) = trivia := by
    rw [← hkind]
  show ⟨.literal, trivia.start, (Span.ofBounds trivia.start trivia.finish).last + 1⟩ ∈ source.trivia
  rwa [hlast, hsame]

/-- Keyword and string of a statement from the cursor on. -/
structure Statement (source : Source) (request : String) (cursor : Nat) (keyword : Symbol)
    (path : Range) : Prop where
  behind : cursor ≤ keyword.span.start
  ordered : keyword.span.start ≤ keyword.span.last
  apart : keyword.span.last < path.start
  nonempty : path.start < path.finish
  inside : path.finish ≤ source.size
  quoted : ∃ quote ∈ quoteBytes, source.byteAt path.start = some quote
  quotes : (source.symbolOver .string path.span).Quotes source request

end Source

namespace Node

/-- What a search for statements from an offset on comes to. They are about some of the modules that
are asked for, in the same order. -/
structure Series (source : Source) (kind : Symbol → Symbol → NodeKind) (requests : List String)
    (start : Nat) (nodes : List Node) : Prop where
  row : Row source.size start nodes
  names : ∃ named, named.Sublist requests ∧ List.Forall₂ (fun request node => ∃ keyword path,
    NamesModule node source kind request keyword path) named nodes

namespace Series

variable {source : Source} {kind : Symbol → Symbol → NodeKind} {requests : List String}
  {request : String} {start : Nat} {node : Node} {nodes : List Node} {range : Range}

theorem nil (start : Nat) : Series source kind [] start [] :=
  ⟨.nil start, [], .refl [], .nil⟩

/-- There is no statement for a module. -/
theorem skip (h : Series source kind requests start nodes) :
    Series source kind (request :: requests) start nodes := by
  obtain ⟨hrow, named, hnamed, hnames⟩ := h
  exact ⟨hrow, named, hnamed.cons request, hnames⟩

theorem cons {keyword path : Symbol} (hnode : node.Solid range)
    (hnames : node.NamesModule source kind request keyword path) (hstart : start ≤ range.start)
    (hinside : range.finish ≤ source.size) (h : Series source kind requests range.finish nodes) :
    Series source kind (request :: requests) start (node :: nodes) := by
  obtain ⟨hrow, named, hnamed, hrest⟩ := h
  exact ⟨.cons hnode hstart hinside hrow, request :: named, hnamed.cons_cons request,
    .cons ⟨keyword, path, hnames⟩ hrest⟩

end Series

/-- Nodes of the kind own a keyword and a path, and may have any number of children. -/
structure OwnsPath (kind : Symbol → Symbol → NodeKind) : Prop where
  symbols : ∀ keyword path, (kind keyword path).symbols = [keyword, path]
  isPlaceholder : ∀ keyword path, (kind keyword path).isPlaceholder = false
  arity : ∀ keyword path, (kind keyword path).arity? = none

/-- With specifiers between keyword and string, the node of the statement passes the check. -/
theorem solid_statement {source : Source} {kind : Symbol → Symbol → NodeKind} {request : String}
    {cursor : Nat} {keyword : Symbol} {path : Range} {names : List Node} (hkind : OwnsPath kind)
    (h : source.Statement request cursor keyword path)
    (hnames : Row path.start (keyword.span.last + 1) names) (flag : Bool) :
    let node : Node :=
      ⟨kind keyword (source.symbolOver .string path.span),
        .ofBounds keyword.span.start path.finish, names, flag⟩
    node.Solid ⟨keyword.span.start, path.finish⟩ ∧
      node.NamesModule source kind request keyword (source.symbolOver .string path.span) := by
  obtain ⟨-, hordered, hapart, hnonempty, -, -, hquotes⟩ := h
  refine ⟨?_, rfl, ?_, hquotes, hnames.bounds, hnames.pairwise⟩
  · have hsolid : (branch (kind keyword (source.symbolOver .string path.span))
        (Range.span ⟨keyword.span.start, path.finish⟩) names).Solid
          ⟨keyword.span.start, path.finish⟩ := by
      refine solid_branch (by show keyword.span.start < path.finish; omega)
        (hkind.isPlaceholder _ _) (hkind.arity _ _) ?_ ?_
      · rw [hkind.symbols]
        refine List.forall_mem_cons.2 ⟨⟨Nat.le_refl _, ?_⟩, List.forall_mem_singleton.2 ?_⟩
        · show keyword.span.last < path.finish
          omega
        · show keyword.span.start ≤ path.start ∧ max (path.finish - 1) path.start < path.finish
          omega
      · exact hnames.checkChildren (by show keyword.span.start ≤ _; omega)
          (by show path.start ≤ path.finish; omega) (endsBefore_none _) (endsBefore_none _)
    exact hsolid.withSemicolon flag
  · show (⟨keyword.span.start, max (path.finish - 1) keyword.span.start⟩ : Span) =
      ⟨keyword.span.start, max (path.finish - 1) path.start⟩
    rw [Span.mk.injEq]
    omega

end Node

namespace Rule

variable {scope : Scope} (hlenient : scope.strict = false)

include hlenient

/-- Whatever word a statement begins with, it has no quotes. So it ends in front of the string. -/
theorem finds_moduleStatement {word : String} (hword : hasQuote word = false)
    (context request : String) (cursor : Nat) :
    Finds scope (moduleStatement word context request cursor)
      fun found => ∀ place ∈ found, scope.source.Statement request cursor place.1 place.2 := by
  have hnone : Finds scope (Pure.pure none : Recover (Option (Symbol × Range))) fun found =>
      ∀ place ∈ found, scope.source.Statement request cursor place.1 place.2 := by
    refine .pure ?_
    rintro place ⟨⟩
  refine Finds.source.bind ?_
  rintro _ rfl
  refine (Finds.settle? hlenient _).bind fun path hpath => ?_
  cases path with
  | none => exact hnone
  | some path =>
    have hfound := Source.locateString_eq_ok_iff.1 (hpath path rfl)
    obtain ⟨-, hinside, hquotes⟩ := Source.quotes_of_findString hfound
    obtain ⟨hnonempty, quote, hquote, hbyte⟩ := Source.byteAt_of_findString hfound
    refine (Finds.settle? hlenient _).bind fun offset hoffset => ?_
    cases offset with
    | none => exact hnone
    | some offset =>
      have hlast : scope.source.findLastWord word cursor path.start = some offset :=
        Source.locateLastWord_eq_ok_iff.1 (hoffset offset rfl)
      have hspec := Search.lastFrom_eq_some_iff.1 hlast
      have hbefore : offset < path.start := Nat.lt_of_lt_of_le hspec.lt_stop (Nat.min_le_left _ _)
      -- The quote in front of the module name is no byte of the keyword, so the keyword ends before
      -- it.
      have hends : offset + word.utf8ByteSize ≤ path.start :=
        Source.le_of_wordMatchesAt hword hquote hbyte hbefore hspec.passes
      refine (Finds.symbolAt _ _).bind ?_
      rintro _ rfl
      refine .pure ?_
      rintro _ ⟨⟩
      refine ⟨hspec.low, ?_, ?_, hnonempty, hinside, ⟨quote, hquote, hbyte⟩, hquotes⟩
      · show offset ≤ offset + max word.utf8ByteSize 1 - 1
        omega
      · show offset + max word.utf8ByteSize 1 - 1 < path.start
        omega

/-- An import statement ends with its string, and the next one is looked for behind it. -/
theorem finds_importStatement (request : String) {entries : List ImportEntry}
    (h : ∀ entry ∈ entries, entry.isUnquoted) (cursor : Nat) :
    Finds scope (importStatement request entries cursor) fun found =>
      found = (none, cursor) ∨ ∃ node range keyword path, found = (some node, range.finish) ∧
        node.Solid range ∧ cursor ≤ range.start ∧ range.finish ≤ scope.source.size ∧
        node.NamesModule scope.source .importStatement request keyword path := by
  refine (finds_moduleStatement hlenient (by decide) _ _ _).bind fun place hplace => ?_
  cases place with
  | none => exact .pure (.inl rfl)
  | some place =>
    obtain ⟨keyword, path⟩ := place
    have hstatement : scope.source.Statement request cursor keyword path :=
      hplace (keyword, path) rfl
    obtain ⟨quote, hquote, hbyte⟩ := hstatement.quoted
    refine (finds_specifiers hlenient hquote hbyte h _).bind fun names hnames => ?_
    refine (Finds.symbolOver _ _).bind ?_
    rintro _ rfl
    refine (Finds.endsWithSemicolon _).bind fun flag _ => .pure (.inr ?_)
    have hkind : OwnsPath .importStatement := ⟨fun _ _ => rfl, fun _ _ => rfl, fun _ _ => rfl⟩
    obtain ⟨hsolid, hnamesModule⟩ := solid_statement hkind hstatement hnames flag
    exact ⟨_, ⟨keyword.span.start, path.finish⟩, keyword, _, rfl, hsolid, hstatement.behind,
      hstatement.inside, hnamesModule⟩

theorem finds_importGroups {groups : List (List ImportEntry)} (hnonempty : [] ∉ groups)
    (h : ∀ entries ∈ groups, ∀ entry ∈ entries, entry.isUnquoted) (cursor : Nat) :
    Finds scope (importGroups groups cursor) (Series scope.source .importStatement
      (groups.filterMap fun entries => entries.head?.map (·.request)) cursor) := by
  induction groups generalizing cursor with
  | nil => exact .pure (.nil cursor)
  | cons entries rest ih =>
    obtain ⟨hentries, hrest⟩ := List.forall_mem_cons.1 h
    rw [List.mem_cons, not_or] at hnonempty
    obtain ⟨entry, more, rfl⟩ := List.exists_cons_of_ne_nil (Ne.symm hnonempty.1)
    have hlater := ih hnonempty.2 hrest
    refine (finds_importStatement hlenient _ hentries cursor).bind ?_
    rintro _ (rfl | ⟨node, range, keyword, path, rfl, hsolid, hstart, hinside, hnames⟩)
    · exact (hlater cursor).bind fun nodes hnodes => .pure hnodes.skip
    · exact (hlater range.finish).bind fun nodes hnodes =>
        .pure (.cons hsolid hnames hstart hinside hnodes)

/-- The statements that export everything from another module, found in the same way. -/
theorem finds_starExports (entries : List ExportEntry) (cursor : Nat) :
    Finds scope (starExports entries cursor) (Series scope.source
      (fun keyword path => .exportStatement (some keyword) false (some path))
      (entries.filterMap (·.request)) cursor) := by
  induction entries generalizing cursor with
  | nil => exact .pure (.nil cursor)
  | cons entry rest ih =>
    obtain ⟨exportName, localName, request⟩ := entry
    cases request with
    | none => exact ih cursor
    | some request =>
      refine (finds_moduleStatement hlenient (by decide) _ _ _).bind fun place hplace => ?_
      cases place with
      | none =>
        intro session
        obtain ⟨nodes, last, hrun, hstack, hnodes⟩ := ih cursor session
        exact ⟨nodes, last, hrun, hstack, hnodes.skip⟩
      | some place =>
        obtain ⟨keyword, path⟩ := place
        have hstatement : scope.source.Statement request cursor keyword path :=
          hplace (keyword, path) rfl
        refine (Finds.symbolOver _ _).bind ?_
        rintro _ rfl
        refine (Finds.endsWithSemicolon _).bind fun flag _ => ?_
        refine (ih path.finish).bind fun nodes hnodes => .pure ?_
        have hkind : OwnsPath fun keyword path =>
            .exportStatement (some keyword) false (some path) :=
          ⟨fun _ _ => rfl, fun _ _ => rfl, fun _ _ => rfl⟩
        obtain ⟨hsolid, hnames⟩ := solid_statement hkind hstatement (.nil _) flag
        exact .cons hsolid hnames hstatement.behind hstatement.inside hnodes

end Rule

/-! ## Merging -/

/-- The modules that are imported from. Neighbouring entries for one module are one statement. -/
def ModuleInfo.importRequests (info : ModuleInfo) : List String :=
  (info.imports.splitBy fun a b => a.request == b.request).filterMap fun entries =>
    entries.head?.map (·.request)

/-- The modules that everything is exported from. -/
def ModuleInfo.exportRequests (info : ModuleInfo) : List String :=
  info.starExports.filterMap (·.request)

/-- The nodes are statements that name some of the modules that are asked for, in the same order.
They pass the check, and lie one behind the other. -/
structure Node.AreLaidOut (nodes : List Node) (source : Source) (kind : Symbol → Symbol → NodeKind)
    (requests : List String) : Prop where
  check : ∀ node ∈ nodes, node.check = .ok ()
  apart : nodes.Pairwise fun a b => a.last < b.start
  names : ∃ named, named.Sublist requests ∧ List.Forall₂ (fun request node => ∃ keyword path,
    NamesModule node source kind request keyword path) named nodes

theorem Node.Series.areLaidOut {source : Source} {kind : Symbol → Symbol → NodeKind}
    {requests : List String} {start : Nat} {nodes : List Node}
    (h : Series source kind requests start nodes) : AreLaidOut nodes source kind requests :=
  ⟨h.row.check, h.row.pairwise, h.names⟩

/-- Items have come among the children there were. If there are none, nothing has changed. -/
structure Node.Merges (former items merged : List Node) : Prop where
  unchanged : items = [] → merged = former
  sorted : items ≠ [] → merged.Pairwise fun a b => a.start ≤ b.start
  perm : merged.Perm (former ++ items)
  sublist : (former.Pairwise fun a b => a.start ≤ b.start) → former.Sublist merged

theorem Node.merges_mergeSort {items : List Node} (former : List Node) (h : items ≠ []) :
    Merges former items ((former ++ items).mergeSort fun a b => a.start ≤ b.start) := by
  have htrans : ∀ a b c : Node, decide (a.start ≤ b.start) = true →
      decide (b.start ≤ c.start) = true → decide (a.start ≤ c.start) = true := by
    intro a b c hab hbc
    exact decide_eq_true (Nat.le_trans (of_decide_eq_true hab) (of_decide_eq_true hbc))
  have htotal : ∀ a b : Node,
      (decide (a.start ≤ b.start) || decide (b.start ≤ a.start)) = true := by
    intro a b
    rw [Bool.or_eq_true, decide_eq_true_eq, decide_eq_true_eq]
    exact Nat.le_total a.start b.start
  constructor
  · exact fun hnil => absurd hnil h
  · intro _
    exact (List.pairwise_mergeSort htrans htotal _).imp of_decide_eq_true
  · exact List.mergeSort_perm _ _
  · intro hsorted
    exact List.sublist_mergeSort htrans htotal (hsorted.imp decide_eq_true)
      (List.sublist_append_left former items)

/-- Items are merged into the children of the node that is open. Without any, nothing is done. -/
theorem exists_merged (items : List Node) (scope : Scope) (session : Session) :
    ∃ last merged, (do
        if !items.isEmpty then
          note (.moduleItems items.length)
          modifyStack fun stack =>
            stack.setChildren ((stack.children ++ items).mergeSort fun a b => a.start ≤ b.start)
        : Recover Unit).outcome scope session = (.ok (), last) ∧
      last.stack = session.stack.setChildren merged ∧
      Node.Merges session.stack.children items merged := by
  by_cases hitems : items = []
  · subst hitems
    refine ⟨session, session.stack.children, rfl, session.stack.setChildren_children.symm, ?_⟩
    constructor
    · exact fun _ => rfl
    · exact fun hsome => absurd rfl hsome
    · rw [List.append_nil]
    · exact fun _ => .refl _
  · have hsome : (!items.isEmpty) = true := by simpa using hitems
    rw [if_pos hsome]
    let merged := (session.stack.children ++ items).mergeSort fun a b => a.start ≤ b.start
    exact ⟨{ session.note (.moduleItems items.length) with
      stack := session.stack.setChildren merged }, merged, rfl, rfl,
      Node.merges_mergeSort session.stack.children hitems⟩

/-- In lenient mode, whatever the text is and whatever the metadata of a module say, the searches
for its imports and its star exports succeed, and leave the tree alone. The statements they find are
laid out, and go among the children of the node that is open. -/
theorem moduleItems_are_laid_out {info : ModuleInfo} {scope : Scope}
    (hlenient : scope.strict = false) (hnames : ∀ entry ∈ info.imports, entry.isUnquoted)
    (session : Session) :
    ∃ imports exports between after last merged,
      (Rule.imports info.imports).outcome scope session = (.ok imports, between) ∧
      (Rule.starExports info.starExports 0).outcome scope between = (.ok exports, after) ∧
      (Rule.moduleItems info).outcome scope session = (.ok (), last) ∧
      Node.AreLaidOut imports scope.source .importStatement info.importRequests ∧
      Node.AreLaidOut exports scope.source
        (fun keyword path => .exportStatement (some keyword) false (some path))
        info.exportRequests ∧
      last.stack = session.stack.setChildren merged ∧
      Node.Merges session.stack.children (imports ++ exports) merged := by
  have hgroups : ∀ group ∈ info.imports.splitBy (fun a b => a.request == b.request),
      ∀ entry ∈ group, entry.isUnquoted := by
    intro group hgroup entry hentry
    refine hnames entry ?_
    rw [← List.flatten_splitBy (fun a b : ImportEntry => a.request == b.request) info.imports]
    exact List.mem_flatten_of_mem hgroup hentry
  obtain ⟨imports, between, himports, hbetween, hlaidImports⟩ :=
    Rule.finds_importGroups hlenient (List.nil_notMem_splitBy _ _) hgroups 0 session
  obtain ⟨exports, after, hexports, hafter, hlaidExports⟩ :=
    Rule.finds_starExports hlenient info.starExports 0 between
  obtain ⟨last, merged, hmerge, hlast, hmerges⟩ := exists_merged (imports ++ exports) scope after
  rw [hafter.trans hbetween] at hlast hmerges
  have hrun : (Rule.moduleItems info).outcome scope session = (.ok (), last) := by
    rw [Rule.moduleItems, Rule.imports, outcome_bind_ok himports, outcome_bind_ok hexports]
    exact hmerge
  exact ⟨imports, exports, between, after, last, merged, himports, hexports, hrun,
    hlaidImports.areLaidOut, hlaidExports.areLaidOut, hlast, hmerges⟩

/-- Metadata that fit their text in part only: nothing is imported from `q`, no `z` is imported, and
`a` is looked for twice. -/
def ModuleInfo.mismatched : ModuleInfo where
  imports := [⟨"q", "default", some "q"⟩, ⟨"m", "a", none⟩, ⟨"m", "z", none⟩, ⟨"m", "a", some "b"⟩,
    ⟨"k", starName, some "c"⟩]
  localExports := []
  starExports := [⟨none, none, some "n"⟩, ⟨none, none, some "n"⟩]

/-- What is in the text is found: two imports and an export, which go around the statement there
is. -/
theorem moduleItems_of_mismatched :
    let info := ModuleInfo.mismatched
    let scope := Scope.of
      "import \x7ba as b\x7d from 'm'; f; export * from 'n'; import * as c from 'k';"
      (some info) ⟨.skipTrivia, false, false⟩
    let former : Node := .leaf .empty ⟨26, 26⟩
    let empty := Session.start scope.source
    let session := { empty with stack := empty.stack.attach former }
    scope.strict = false ∧ (∀ entry ∈ info.imports, entry.isUnquoted) ∧
      ∃ imports exports last merged,
        (Rule.moduleItems info).outcome scope session = (.ok (), last) ∧
        last.stack = session.stack.setChildren merged ∧
        Node.Merges [former] (imports ++ exports) merged ∧
        imports.map (·.span) = [⟨0, 23⟩, ⟨48, 69⟩] ∧ exports.map (·.span) = [⟨29, 45⟩] := by
  intro info scope former empty session
  have hnames : ∀ entry ∈ info.imports, entry.isUnquoted := by decide +kernel
  obtain ⟨imports, exports, between, after, last, merged, himports, hexports, hrun, -, -, hlast,
    hmerges⟩ := @moduleItems_are_laid_out info scope rfl hnames session
  let spans (result : Except Failure (List Node)) := result.toOption.map (·.map (·.span))
  have hfound : spans ((Rule.imports info.imports).outcome scope session).1 =
      some [⟨0, 23⟩, ⟨48, 69⟩] := by decide +kernel
  have hfound' : spans ((Rule.starExports info.starExports 0).outcome scope
      ((Rule.imports info.imports).outcome scope session).2).1 = some [⟨29, 45⟩] := by
    decide +kernel
  rw [himports] at hfound hfound'
  rw [hexports] at hfound'
  exact ⟨rfl, hnames, imports, exports, last, merged, hrun, hlast, hmerges, Option.some.inj hfound,
    Option.some.inj hfound'⟩

end Concretion
