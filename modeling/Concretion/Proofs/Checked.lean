import Concretion.Proofs.Scanned
import Concretion.Proofs.Sound.Steps
import Concretion.Recovery.Rule.Block
import Concretion.Recovery.Rule.Try

/-!
# Reading and counting with care

The operations of a recovery look up bytes and children by their place, cut lists at a place, and
subtract numbers. Here they are written out once more such that each of these fails when the place
does not exist or the difference is negative. They never fail. A look-up that is meant to find
nothing beyond the end of the text, such as that of the byte behind a word, is none of these.

Covered are the text that a search for a token or a word is cut from at each offset it tries, the
ranges that are cut out for the content of a string, with the first and the last byte of each, every
byte that the search for the next significant one looks at, every byte in the loops of the scan, the
window and the label of what is missing, and the places of children that are moved or grouped.

- `Checked.difference`, `Checked.clamp`, `Checked.suffix`, `Checked.slice`: the primitives.
- `Checked.wordBefore`, `Checked.stringEnd`, `Checked.regexEnd`, `Checked.templateEnd`: the loops of
  the scan, which go from offset to offset where the tails of the scan go along a list.
- `Source.Guarded`: all searches of a text come out the same when they are written with them.
- `Stack.Guarded`: so do the changes to the children of an open node.
-/

namespace Concretion

open Text

/-! ## Primitives -/

namespace Checked

/-- The difference of two numbers. -/
def difference (a b : Nat) : Option Nat := if b ≤ a then some (a - b) else none

/-- The number of an interval that is nearest to the given one. -/
def clamp (n low high : Nat) : Option Nat :=
  if low ≤ high then some (max low (min n high)) else none

/-- The elements of a list from a place on. The place may be just behind the last element. -/
def suffix {α : Type} (list : List α) (start : Nat) : Option (List α) :=
  if start ≤ list.length then some (list.drop start) else none

/-- The elements of a list between two places. -/
def slice {α : Type} (list : List α) (start finish : Nat) : Option (List α) :=
  if start ≤ finish ∧ finish ≤ list.length then some ((list.drop start).take (finish - start))
  else none

/-- The least of the `count` offsets from `start` on that passes a test which may fail. -/
def firstFrom (test : Nat → Option Bool) (start : Nat) : Nat → Option (Option Nat)
  | 0 => some none
  | count + 1 => do
    if ← test start then return some start
    else firstFrom test (start + 1) count

/-- The greatest of the `count` offsets from `start` on that passes a test which may fail. -/
def lastFrom (test : Nat → Option Bool) (start : Nat) : Nat → Option (Option Nat)
  | 0 => some none
  | count + 1 => do
    if ← test (start + count) then return some (start + count)
    else lastFrom test start count

/-- Is the second list the first one in quotes? Its first and its last element are looked at. -/
def inQuotes (content written : List UInt8) : Option Bool := do
  if written.length != content.length + 2 then return false
  let place ← difference written.length 1
  let first ← written[0]?
  let last ← written[place]?
  let inner ← slice written 1 place
  return (first == 0x27 || first == 0x22) && last == first && inner == content

theorem difference_eq {a b : Nat} (h : b ≤ a) : difference a b = some (a - b) := if_pos h

theorem firstFrom_eq {test : Nat → Option Bool} {total : Nat → Bool} {start count : Nat}
    (h : ∀ offset, start ≤ offset → offset < start + count → test offset = some (total offset)) :
    firstFrom test start count = some (Search.firstFrom total start count) := by
  induction count generalizing start with
  | zero => rfl
  | succ count ih =>
    have hrest : firstFrom test (start + 1) count =
        some (Search.firstFrom total (start + 1) count) :=
      ih fun offset hlow hhigh => h offset (by omega) (by omega)
    rw [firstFrom, Search.firstFrom, h start (Nat.le_refl _) (by omega), hrest]
    cases total start <;> rfl

theorem lastFrom_eq {test : Nat → Option Bool} {total : Nat → Bool} {start count : Nat}
    (h : ∀ offset, start ≤ offset → offset < start + count → test offset = some (total offset)) :
    lastFrom test start count = some (Search.lastFrom total start count) := by
  induction count with
  | zero => rfl
  | succ count ih =>
    have hrest := ih fun offset hlow hhigh => h offset hlow (by omega)
    rw [lastFrom, Search.lastFrom, h (start + count) (by omega) (by omega), hrest]
    cases total (start + count) <;> rfl

theorem exists_ends_of_two_le {list : List UInt8} (h : 2 ≤ list.length) :
    ∃ first middle last, list = first :: (middle ++ [last]) := by
  cases list with
  | nil => simp at h
  | cons first rest =>
    rcases List.eq_nil_or_concat rest with rfl | ⟨middle, last, rfl⟩
    · simp at h
    · exact ⟨first, middle, last, by simp⟩

theorem inQuotes_eq (content written : List UInt8) :
    inQuotes content written =
      some ([0x27, 0x22].any fun quote => written == quote :: content ++ [quote]) := by
  -- Only a text that is two bytes longer than the content can be the content in quotes, and such a
  -- text has ends to look at.
  by_cases hlength : written.length = content.length + 2
  · obtain ⟨first, middle, last, rfl⟩ := exists_ends_of_two_le (by omega : 2 ≤ written.length)
    have hmiddle : middle.length = content.length := by
      simp only [List.length_cons, List.length_append, List.length_nil] at hlength
      omega
    have hslice : slice (first :: (middle ++ [last])) 1 (middle.length + 1) = some middle := by
      simp [slice]
    have hlast : (first :: (middle ++ [last]))[middle.length + 1]? = some last := by simp
    have hplace : difference (first :: (middle ++ [last])).length 1 = some (middle.length + 1) := by
      simp [difference]
    have hwritten : ∀ quote : UInt8, first :: (middle ++ [last]) = quote :: content ++ [quote] ↔
        first = quote ∧ last = quote ∧ middle = content := by
      intro quote
      constructor
      · intro h
        obtain ⟨hfirst, hrest⟩ := List.cons_eq_cons.1 h
        obtain ⟨hm, hl⟩ := List.append_inj hrest hmiddle
        exact ⟨hfirst, (List.cons_eq_cons.1 hl).1, hm⟩
      · rintro ⟨rfl, rfl, rfl⟩
        rfl
    rw [inQuotes, if_neg (by simp [hlength]), hplace]
    simp only [Option.bind_eq_bind, Option.bind_some, List.getElem?_cons_zero, hlast, hslice]
    refine congrArg some (Bool.eq_iff_iff.2 ?_)
    simp only [Bool.and_eq_true, Bool.or_eq_true, beq_iff_eq, List.any_cons, List.any_nil, hwritten,
      Bool.or_false]
    constructor
    · rintro ⟨⟨rfl | rfl, hl⟩, hm⟩
      · exact .inl ⟨rfl, hl, hm⟩
      · exact .inr ⟨rfl, hl, hm⟩
    · rintro (⟨rfl, hl, hm⟩ | ⟨rfl, hl, hm⟩)
      · exact ⟨⟨.inl rfl, hl⟩, hm⟩
      · exact ⟨⟨.inr rfl, hl⟩, hm⟩
  · rw [inQuotes, if_pos (by simp [hlength])]
    refine congrArg some (Bool.eq_iff_iff.2 ⟨fun h => (by cases h), fun h => ?_⟩)
    obtain ⟨quote, -, hquote⟩ := List.any_eq_true.1 h
    rw [eq_of_beq hquote] at hlength
    simp at hlength

/-! ## Loops over bytes -/

/-- The bytes ahead of an offset, which itself is in the text or at its end. -/
structure Ahead (bytes : Array UInt8) (offset : Nat) (rest : List UInt8) : Prop where
  le : offset ≤ bytes.size
  drop : bytes.toList.drop offset = rest

section Loops

variable (bytes : Array UInt8)

/-- Where the bytes of a word end that goes on from the offset. -/
def wordEnd (offset : Nat) : Option Nat :=
  if offset < bytes.size then do
    let b ← bytes[offset]?
    if isWordByte b then wordEnd (offset + 1) else return offset
  else return offset
termination_by bytes.size - offset

/-- Where the bytes of a word start that ends at the offset. -/
def wordStart : Nat → Option Nat
  | 0 => some 0
  | last + 1 => do
    let b ← bytes[last]?
    if isWordByte b then wordStart last else return last + 1

/-- The word that ends at the offset. It is cut out of the text. -/
def wordBefore (finish : Nat) : Option (List UInt8) := do
  slice bytes.toList (← wordStart bytes finish) finish

/-- Where a string ends that goes on from the offset. -/
def stringEnd (quote : UInt8) (offset : Nat) : Option Nat :=
  if offset < bytes.size then do
    let b ← bytes[offset]?
    if b == 0x5C then stringEnd quote (offset + 2)
    else if b == 0x0A then return offset
    else if b == quote then return offset + 1
    else stringEnd quote (offset + 1)
  else return bytes.size
termination_by bytes.size - offset

/-- Where a regular expression ends that goes on from the offset. -/
def regexEnd (inClass : Bool) (offset : Nat) : Option (Option Nat) :=
  if offset < bytes.size then do
    let b ← bytes[offset]?
    if b == 0x5C then regexEnd inClass (offset + 2)
    else if b == 0x0A then return none
    else if b == 0x5B then regexEnd true (offset + 1)
    else if b == 0x5D then regexEnd false (offset + 1)
    else if b == 0x2F && !inClass then return some (← wordEnd bytes (offset + 1))
    else regexEnd inClass (offset + 1)
  else return none
termination_by bytes.size - offset

/-- Where template text ends that goes on from the offset, and how. -/
def templateEnd (offset : Nat) : Option (Nat × Scan.TemplateEnd) :=
  if offset < bytes.size then do
    let b ← bytes[offset]?
    if b == 0x5C then templateEnd (offset + 2)
    else if b == 0x60 then return (offset + 1, .closed)
    else if b == 0x24 && bytes[offset + 1]? == some 0x7B then return (offset + 2, .substitution)
    else templateEnd (offset + 1)
  else return (bytes.size, .unfinished)
termination_by bytes.size - offset

end Loops

variable {bytes : Array UInt8} {offset : Nat} {b : UInt8} {rest : List UInt8}

theorem ahead_drop (h : offset ≤ bytes.size) :
    Ahead bytes offset (bytes.toList.drop offset) := ⟨h, rfl⟩

namespace Ahead

theorem eq_size (h : Ahead bytes offset []) : offset = bytes.size := by
  have hlength := List.drop_eq_nil_iff.1 h.drop
  rw [Array.length_toList] at hlength
  exact Nat.le_antisymm h.le hlength

theorem not_lt (h : Ahead bytes offset []) : ¬offset < bytes.size := by
  rw [h.eq_size]
  exact Nat.lt_irrefl _

theorem lt (h : Ahead bytes offset (b :: rest)) : offset < bytes.size := by
  refine Nat.lt_of_le_of_ne h.le ?_
  rintro rfl
  have hnil : bytes.toList.drop bytes.size = [] :=
    List.drop_eq_nil_of_le (by rw [Array.length_toList])
  cases hnil.symm.trans h.drop

theorem getElem? (h : Ahead bytes offset (b :: rest)) : bytes[offset]? = some b := by
  rw [← Array.getElem?_toList, ← List.head?_drop, h.drop]
  rfl

theorem next (h : Ahead bytes offset (b :: rest)) : Ahead bytes (offset + 1) rest := by
  refine ⟨h.lt, ?_⟩
  rw [← List.drop_drop, h.drop]
  rfl

theorem head? (h : Ahead bytes offset rest) : bytes[offset]? = rest.head? := by
  rw [← Array.getElem?_toList, ← List.head?_drop, h.drop]

/-- In front of the end of the text, a loop goes on with the byte it looks at. -/
theorem look {α : Type} {next : UInt8 → Option α} {stop : Option α}
    (h : Ahead bytes offset (b :: rest)) :
    (if offset < bytes.size then bytes[offset]? >>= next else stop) = next b := by
  rw [if_pos h.lt, h.getElem?]
  rfl

theorem wordEnd_eq (h : Ahead bytes offset rest) :
    wordEnd bytes offset = some (offset + (rest.takeWhile isWordByte).length) := by
  induction rest generalizing offset with
  | nil => exact (wordEnd.eq_1 bytes offset).trans (if_neg h.not_lt)
  | cons b rest ih =>
    rw [wordEnd, h.look]
    by_cases hword : isWordByte b = true
    · rw [if_pos hword, ih h.next, List.takeWhile_cons_of_pos hword, List.length_cons]
      exact congrArg some (by omega)
    · rw [if_neg hword, List.takeWhile_cons_of_neg hword]
      rfl

theorem stringEnd_eq {quote : UInt8} (h : Ahead bytes offset rest) :
    stringEnd bytes quote offset = some (offset + Scan.stringTail quote rest) := by
  fun_induction Scan.stringTail quote rest generalizing offset with
  | case1 =>
    rw [stringEnd, if_neg h.not_lt, h.eq_size]
    rfl
  | case2 b hslash =>
    -- the byte behind the backslash is passed over, whether it is there or not
    have hend := h.next.eq_size
    rw [stringEnd, h.look, if_pos hslash, stringEnd, if_neg (by omega), ← hend]
    rfl
  | case3 b hslash c rest ih =>
    rw [stringEnd, h.look, if_pos hslash, ih h.next.next]
    exact congrArg some (by omega)
  | case4 b rest hslash hfeed =>
    rw [stringEnd, h.look, if_neg hslash, if_pos hfeed]
    rfl
  | case5 b rest hslash hfeed hquote =>
    rw [stringEnd, h.look, if_neg hslash, if_neg hfeed, if_pos hquote]
    rfl
  | case6 b rest hslash hfeed hquote ih =>
    rw [stringEnd, h.look, if_neg hslash, if_neg hfeed, if_neg hquote, ih h.next]
    exact congrArg some (by omega)

/-- One more place is counted from one offset further on. -/
theorem map_add_map {extra : Option Nat} {offset step : Nat} :
    extra.map (offset + step + ·) = (extra.map (· + step)).map (offset + ·) := by
  cases extra with
  | none => rfl
  | some extra =>
      exact congrArg some (show offset + step + extra = offset + (extra + step) by omega)

theorem regexEnd_eq {inClass : Bool} (h : Ahead bytes offset rest) :
    regexEnd bytes inClass offset =
      some ((Scan.regexTail inClass rest).map (offset + ·)) := by
  fun_induction Scan.regexTail inClass rest generalizing offset with
  | case1 =>
    rw [regexEnd, if_neg h.not_lt]
    rfl
  | case2 inClass b hslash =>
    have hend := h.next.eq_size
    rw [regexEnd, h.look, if_pos hslash, regexEnd, if_neg (by omega)]
    rfl
  | case3 inClass b hslash c rest ih =>
    rw [regexEnd, h.look, if_pos hslash, ih h.next.next, ← map_add_map]
  | case4 inClass b rest hslash hfeed =>
    rw [regexEnd, h.look, if_neg hslash, if_pos hfeed]
    rfl
  | case5 inClass b rest hslash hfeed hopen ih =>
    rw [regexEnd, h.look, if_neg hslash, if_neg hfeed, if_pos hopen, ih h.next, ← map_add_map]
  | case6 inClass b rest hslash hfeed hopen hclose ih =>
    rw [regexEnd, h.look, if_neg hslash, if_neg hfeed, if_neg hopen, if_pos hclose, ih h.next,
      ← map_add_map]
  | case7 inClass b rest hslash hfeed hopen hclose hend =>
    rw [regexEnd, h.look, if_neg hslash, if_neg hfeed, if_neg hopen, if_neg hclose, if_pos hend,
      h.next.wordEnd_eq]
    exact congrArg (some ∘ some) (Nat.add_right_comm offset 1 _)
  | case8 inClass b rest hslash hfeed hopen hclose hend ih =>
    rw [regexEnd, h.look, if_neg hslash, if_neg hfeed, if_neg hopen, if_neg hclose, if_neg hend,
      ih h.next, ← map_add_map]

theorem templateEnd_eq (h : Ahead bytes offset rest) :
    templateEnd bytes offset =
      some (offset + (Scan.templateTail rest).1, (Scan.templateTail rest).2) := by
  fun_induction Scan.templateTail rest generalizing offset with
  | case1 =>
    rw [templateEnd, if_neg h.not_lt, h.eq_size]
    rfl
  | case2 b hslash =>
    have hend := h.next.eq_size
    rw [templateEnd, h.look, if_pos hslash, templateEnd, if_neg (by omega), ← hend]
    rfl
  | case3 b hslash c rest length ending htail ih =>
    rw [templateEnd, h.look, if_pos hslash, ih h.next.next, htail]
    exact congrArg (fun place => some (place, ending))
      (show offset + 1 + 1 + length = offset + (length + 2) by omega)
  | case4 b rest hslash htick =>
    rw [templateEnd, h.look, if_neg hslash, if_pos htick]
    rfl
  | case5 b rest hslash htick hopen =>
    rw [templateEnd, h.look, if_neg hslash, if_neg htick, h.next.head?, if_pos hopen]
    rfl
  | case6 b rest hslash htick hopen length ending htail ih =>
    rw [templateEnd, h.look, if_neg hslash, if_neg htick, h.next.head?, if_neg hopen, ih h.next,
      htail]
    exact congrArg (fun place => some (place, ending))
      (show offset + 1 + length = offset + (length + 1) by omega)

end Ahead

/-- The word starts as far in front of the offset as there are bytes of a word. -/
theorem wordStart_eq {finish : Nat} (h : finish ≤ bytes.size) :
    wordStart bytes finish =
      some (finish - ((bytes.toList.take finish).reverse.takeWhile isWordByte).length) := by
  induction finish with
  | zero => rfl
  | succ last ih =>
    have hlookup : bytes.toList[last]? = some bytes[last] := by
      rw [Array.getElem?_toList, Array.getElem?_eq_getElem h]
    have htake : (bytes.toList.take (last + 1)).reverse =
        bytes[last] :: (bytes.toList.take last).reverse := by
      rw [List.take_add_one, hlookup, Option.toList_some, List.reverse_append]
      rfl
    rw [wordStart, Array.getElem?_eq_getElem h, Option.bind_eq_bind, Option.bind_some, htake]
    by_cases hword : isWordByte bytes[last] = true
    · rw [if_pos hword, ih (Nat.le_of_lt h), List.takeWhile_cons_of_pos hword, List.length_cons,
        Nat.add_sub_add_right]
    · rw [if_neg hword, List.takeWhile_cons_of_neg hword]
      rfl

theorem wordBefore_eq {finish : Nat} (h : finish ≤ bytes.size) :
    wordBefore bytes finish =
      some ((bytes.toList.take finish).reverse.takeWhile isWordByte).reverse := by
  let lead := (bytes.toList.take finish).reverse
  have hlength : lead.length = finish := by
    rw [List.length_reverse, List.length_take, Array.length_toList, Nat.min_eq_left h]
  have hsplit :
      (lead.dropWhile isWordByte).length + (lead.takeWhile isWordByte).length = finish := by
    rw [Nat.add_comm, ← List.length_append, List.takeWhile_append_dropWhile, hlength]
  have hcut : bytes.toList.take finish =
      (lead.dropWhile isWordByte).reverse ++ (lead.takeWhile isWordByte).reverse := by
    rw [← List.reverse_append, List.takeWhile_append_dropWhile, List.reverse_reverse]
  have hdrop : (bytes.toList.take finish).drop (finish - (lead.takeWhile isWordByte).length) =
      (lead.takeWhile isWordByte).reverse := by
    rw [hcut, List.drop_left' (by rw [List.length_reverse]; omega)]
  rw [wordBefore, wordStart_eq h, Option.bind_eq_bind, Option.bind_some, slice,
    if_pos ⟨Nat.sub_le _ _, by rwa [Array.length_toList]⟩, ← List.drop_take]
  exact congrArg some hdrop

end Checked

/-! ## Spans -/

namespace Span

/-- The stretch of text that a diagnostic marks, with its length as a difference. -/
def checkedLabel (span : Span) : Option Label := do
  let length ← Checked.difference span.last span.start
  return ⟨span.start, length + 1⟩

theorem checkedLabel_eq {span : Span} (h : span.Ordered) : span.checkedLabel = some span.label := by
  have hle : span.start ≤ span.last := h
  rw [checkedLabel, Checked.difference_eq hle]
  rfl

end Span

/-! ## Searches -/

theorem Text.startsAt_eq (bytes : Array UInt8) (pattern : List UInt8) (offset : Nat) :
    startsAt bytes pattern offset = pattern.isPrefixOf (bytes.toList.drop offset) := by
  induction pattern generalizing offset with
  | nil => simp [startsAt]
  | cons b rest ih =>
    rw [startsAt, ih]
    by_cases hlt : offset < bytes.size
    · have hdrop : bytes.toList.drop offset = bytes[offset] :: bytes.toList.drop (offset + 1) := by
        rw [List.drop_eq_getElem_cons (by simpa using hlt), Array.getElem_toList]
      rw [hdrop, Array.getElem?_eq_getElem hlt, List.isPrefixOf_cons_cons, Option.some_beq_some,
        BEq.comm]
    · have hdrop : bytes.toList.drop offset = [] :=
        List.drop_eq_nil_of_le (by simpa using Nat.not_lt.1 hlt)
      rw [hdrop, Array.getElem?_eq_none (Nat.not_lt.1 hlt)]
      rfl

namespace Source

/-- The bytes of a pattern stand at an offset just if each of them stands at its place. -/
theorem startsAt_iff (source : Source) {pattern : List UInt8} {offset : Nat} :
    Text.startsAt source.bytes pattern offset = true ↔
      ∀ (i : Nat) (hi : i < pattern.length), source.byteAt (offset + i) = some pattern[i] := by
  induction pattern generalizing offset with
  | nil => exact ⟨fun _ i hi => absurd hi (Nat.not_lt_zero i), fun _ => rfl⟩
  | cons b rest ih =>
    rw [Text.startsAt, Bool.and_eq_true, beq_iff_eq, ih]
    constructor
    · rintro ⟨hfirst, hrest⟩ i hi
      cases i with
      | zero => exact hfirst
      | succ i =>
        rw [← Nat.add_assoc, Nat.add_right_comm]
        exact hrest i (Nat.lt_of_succ_lt_succ hi)
    · intro h
      refine ⟨h 0 (Nat.zero_lt_succ _), fun i hi => ?_⟩
      rw [Nat.add_right_comm, Nat.add_assoc]
      exact h (i + 1) (Nat.succ_lt_succ hi)

variable (source : Source)

/-- Does the pattern stand at the offset? The text is cut there. -/
def checkedMatch (bytes : List UInt8) (offset : Nat) : Option Bool := do
  let rest ← Checked.suffix source.bytes.toList offset
  return bytes.isPrefixOf rest && !source.inTrivia offset

/-- Does the pattern stand at the offset as a whole word? -/
def checkedWordMatch (alphabetic : Bool) (bytes : List UInt8) (offset : Nat) : Option Bool := do
  let here ← source.checkedMatch bytes offset
  return here &&
    (!alphabetic ||
      (!((Checked.difference offset 1).bind source.byteAt).any isWordByte &&
        !(source.byteAt (offset + bytes.length)).any isWordByte))

/-- Is the range a literal in quotes around the given content? The range is cut out of the text. -/
def checkedQuoted (content : List UInt8) (trivia : Trivia) : Option Bool := do
  let written ← Checked.slice source.bytes.toList trivia.start trivia.finish
  if trivia.kind == .literal then Checked.inQuotes content written else return false

theorem checkedMatch_eq {offset : Nat} (bytes : List UInt8) (h : offset ≤ source.size) :
    source.checkedMatch bytes offset = some (source.matchesAt bytes offset) := by
  have hsuffix : Checked.suffix source.bytes.toList offset =
      some (source.bytes.toList.drop offset) := if_pos (by rwa [Array.length_toList])
  rw [checkedMatch, hsuffix, matchesAt, startsAt_eq]
  rfl

theorem checkedWordMatch_eq {offset : Nat} (alphabetic : Bool) (bytes : List UInt8)
    (h : offset ≤ source.size) :
    source.checkedWordMatch alphabetic bytes offset =
      some (source.wordMatchesAt alphabetic bytes offset) := by
  rw [checkedWordMatch, checkedMatch_eq source bytes h, wordMatchesAt]
  cases offset with
  | zero => rfl
  | succ offset => simp [Checked.difference]

theorem checkedQuoted_eq {trivia : Trivia} (content : List UInt8) (h : trivia ∈ source.trivia) :
    source.checkedQuoted content trivia = some (source.isQuoted content trivia) := by
  obtain ⟨hstart, hfinish⟩ := source.trivia_inside h
  have hwritten : Checked.slice source.bytes.toList trivia.start trivia.finish =
      some (source.bytes.extract trivia.start trivia.finish).toList := by
    rw [Checked.slice, if_pos ⟨hstart.le, by rwa [Array.length_toList]⟩, Array.toList_extract]
  rw [checkedQuoted, isQuoted, hwritten]
  cases trivia.kind with
  | comment => rfl
  | literal => exact Checked.inQuotes_eq _ _

/-- The first significant offset from `offset` on. -/
def checkedNextSignificant (offset : Nat) : Option (Option Nat) :=
  if offset < source.size then
    match around : source.skipped offset with
    | some trivia => checkedNextSignificant trivia.finish
    | none => do
      if isBlankByte (← source.byteAt offset) then checkedNextSignificant (offset + 1)
      else return some offset
  else return none
termination_by source.size - offset
decreasing_by
  · have := lt_finish_of_triviaAt (Option.filter_eq_some_iff.1 around).1
    omega
  · omega

theorem checkedNextSignificant_eq (offset : Nat) :
    source.checkedNextSignificant offset = some (source.nextSignificant offset) := by
  fun_induction source.checkedNextSignificant offset with
  | case1 offset hinside trivia haround ih =>
    rw [ih, nextSignificant_of_byte (Array.getElem?_eq_getElem hinside), haround]
    rfl
  | case2 offset hinside haround ih =>
    have hbyte : source.byteAt offset = some source.bytes[offset] :=
      Array.getElem?_eq_getElem hinside
    rw [nextSignificant_of_byte hbyte, haround, hbyte, Option.bind_eq_bind, Option.bind_some,
      Option.elim_none, ih]
    split <;> rfl
  | case3 offset houtside => rw [nextSignificant_of_size_le (Nat.not_lt.1 houtside)]; rfl

/-- The searches of a text and the loops of its scan come out as they do when every byte is looked
up with care, and what is reported of a missing token too. -/
structure Guarded : Prop where
  /-- The ranges that are cut out of the text lie inside it. -/
  trivia : ∀ trivia ∈ source.trivia, trivia.start < trivia.finish ∧ trivia.finish ≤ source.size
  find : ∀ token start finish,
    Checked.firstFrom (source.checkedMatch (pattern token)) start (min finish source.size - start) =
      some (source.find token start finish)
  findLast : ∀ token start finish,
    Checked.lastFrom (source.checkedMatch (pattern token)) start (min finish source.size - start) =
      some (source.findLast token start finish)
  findWord : ∀ word start finish,
    Checked.firstFrom (source.checkedWordMatch (isAlphabetic word) (pattern word)) start
      (min finish source.size - start) = some (source.findWord word start finish)
  findLastWord : ∀ word start finish,
    Checked.lastFrom (source.checkedWordMatch (isAlphabetic word) (pattern word)) start
      (min finish source.size - start) = some (source.findLastWord word start finish)
  hasWordAt : ∀ word offset,
    (if offset < source.size then
      source.checkedWordMatch (isAlphabetic word) (pattern word) offset
    else some false) = some (source.hasWordAt word offset)
  quoted : ∀ content, ∀ trivia ∈ source.trivia,
    source.checkedQuoted content trivia = some (source.isQuoted content trivia)
  nextSignificant : ∀ offset,
    source.checkedNextSignificant offset = some (source.nextSignificant offset)
  /-- The word by which a slash is judged. -/
  word : ∀ finish ≤ source.size, Checked.wordBefore source.bytes finish =
    some ((source.bytes.toList.take finish).reverse.takeWhile isWordByte).reverse
  string : ∀ quote, ∀ offset ≤ source.size, Checked.stringEnd source.bytes quote offset =
    some (offset + Scan.stringTail quote (source.bytes.toList.drop offset))
  regex : ∀ inClass, ∀ offset ≤ source.size, Checked.regexEnd source.bytes inClass offset =
    some ((Scan.regexTail inClass (source.bytes.toList.drop offset)).map (offset + ·))
  template : ∀ offset ≤ source.size, Checked.templateEnd source.bytes offset =
    some (offset + (Scan.templateTail (source.bytes.toList.drop offset)).1,
      (Scan.templateTail (source.bytes.toList.drop offset)).2)
  missing : ∀ context token start finish,
    (if start ≤ source.size then
      (Checked.clamp finish start source.size).bind fun finish =>
        (Span.ofBounds start finish).checkedLabel.map some
    else some none) = some (source.missing context token start finish).label

theorem guarded : source.Guarded where
  trivia _ h := source.trivia_inside h
  find token start finish := Checked.firstFrom_eq fun offset hlow hhigh =>
    source.checkedMatch_eq _ (by omega)
  findLast token start finish := Checked.lastFrom_eq fun offset hlow hhigh =>
    source.checkedMatch_eq _ (by omega)
  findWord word start finish := Checked.firstFrom_eq fun offset hlow hhigh =>
    source.checkedWordMatch_eq _ _ (by omega)
  findLastWord word start finish := Checked.lastFrom_eq fun offset hlow hhigh =>
    source.checkedWordMatch_eq _ _ (by omega)
  hasWordAt word offset := by
    split
    · next h => rw [source.checkedWordMatch_eq _ _ h.le, hasWordAt, decide_eq_true h, Bool.true_and]
    · next h => rw [hasWordAt, decide_eq_false h, Bool.false_and]
  quoted content trivia h := source.checkedQuoted_eq content h
  nextSignificant offset := source.checkedNextSignificant_eq offset
  word finish h := Checked.wordBefore_eq h
  string quote offset h := (Checked.ahead_drop h).stringEnd_eq
  regex inClass offset h := (Checked.ahead_drop h).regexEnd_eq
  template offset h := (Checked.ahead_drop h).templateEnd_eq
  missing context token start finish := by
    simp only [missing]
    split
    · next h =>
      rw [Checked.clamp, if_pos h, Option.bind_some,
        Span.checkedLabel_eq (Span.ordered_ofBounds _ _)]
      rfl
    · rfl

end Source

/-! ## Changes to the children -/

namespace Stack

/-- The changes to the children of the innermost open node come out as they do when every child is
looked up with care. -/
structure Guarded (stack : Stack) : Prop where
  reorder : ∀ permutation, isPermutation permutation stack.children.length →
    permutation.mapM (stack.children[·]?) = some (permutation.filterMap (stack.children[·]?))
  groupLastChild : stack.lastChild?.isSome →
    Checked.difference stack.current.childCount 1 = some (stack.current.childCount - 1)

theorem guarded (stack : Stack) : stack.Guarded where
  reorder permutation h := by
    have hbound : ∀ index ∈ permutation, index < stack.children.length :=
      (isPermutation_iff.1 h).2.1
    clear h
    induction permutation with
    | nil => rfl
    | cons index rest ih =>
      obtain ⟨child, hindex⟩ : ∃ child, stack.children[index]? = some child :=
        ⟨_, List.getElem?_eq_getElem (hbound index (by simp))⟩
      rw [List.mapM_cons, hindex, ih fun other hmem => hbound other (by simp [hmem]),
        List.filterMap_cons, hindex]
      rfl
  groupLastChild h := by
    obtain ⟨child, hchild⟩ := Option.isSome_iff_exists.1 h
    have hpos : 0 < stack.current.childCount := by
      rw [Node.childCount, List.length_pos_iff]
      rintro hnil
      simp [lastChild?, Node.lastChild?, hnil] at hchild
    exact Checked.difference_eq hpos

end Stack

end Concretion
