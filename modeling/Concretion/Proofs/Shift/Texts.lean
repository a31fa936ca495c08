import Concretion.Proofs.Comments
import Concretion.Proofs.Shift
import Concretion.Proofs.Written.Bytes

/-!
# Texts behind blank space

A text with blank space in front of it. Whatever is read of the text alone is read of the longer one
too, further to the right. In the blank space itself nothing is found.

- `Indent`: a text and the blank space that goes in front of it.
- `Scan.scan_blanks`: comments and literals move with the text.
- `Indent.Low`: starts of windows that reach into the blank space together with the text, or not at
  all.
- `Indent.find_moved`, `Indent.findLast_low` and so on: the searches.
-/

namespace Concretion

open Text

/-- The comment or literal, moved to the right. -/
def Trivia.shift (count : Nat) (trivia : Trivia) : Trivia :=
  ⟨trivia.kind, count + trivia.start, count + trivia.finish⟩

/-! ## Scanning -/

namespace Text

/-- Blank bytes are in no word. -/
theorem isWordByte_of_isBlankByte {b : UInt8} (h : isBlankByte b = true) :
    isWordByte b = false := by
  simp only [isBlankByte, Bool.or_eq_true, beq_iff_eq] at h
  obtain ((((rfl | rfl) | rfl) | rfl) | rfl) := h <;> rfl

/-- No blank byte is a semicolon. -/
theorem ne_semicolon_of_isBlankByte {b : UInt8} (h : isBlankByte b = true) :
    (b == 0x3B) = false := by
  simp only [isBlankByte, Bool.or_eq_true, beq_iff_eq] at h
  obtain ((((rfl | rfl) | rfl) | rfl) | rfl) := h <;> rfl

end Text

namespace Scan

/-- A blank byte takes up a step of its own, at which nothing is found. -/
theorem step_blank {b : UInt8} (h : isBlankByte b = true) (lead : List UInt8) (depths : List Nat)
    (rest : List UInt8) : step lead depths b rest = ⟨0, none, false, depths⟩ := by
  simp only [isBlankByte, Bool.or_eq_true, beq_iff_eq] at h
  obtain ((((rfl | rfl) | rfl) | rfl) | rfl) := h <;> rfl

/-- A scan passes over blanks one by one and notes nothing. -/
theorem scanFrom_blanks {blanks : List UInt8} (h : ∀ b ∈ blanks, isBlankByte b = true)
    (offset : Nat) (before lead : List UInt8) (depths : List Nat) (rest : List UInt8) :
    scanFrom offset before lead depths (blanks ++ rest) =
      scanFrom (blanks.length + offset) (blanks.reverse ++ before) lead depths rest := by
  induction blanks generalizing offset before with
  | nil => rw [List.nil_append, List.length_nil, Nat.zero_add, List.reverse_nil, List.nil_append]
  | cons b blanks ih =>
    obtain ⟨hblank, hblanks⟩ := List.forall_mem_cons.1 h
    rw [List.cons_append, scanFrom, step_blank hblank]
    show scanFrom (offset + 1) (b :: before) lead depths (blanks ++ rest) = _
    rw [ih hblanks, List.length_cons, List.reverse_cons, List.append_assoc]
    exact congrArg (scanFrom · _ _ _ _) (by omega)

/-- What counts for a slash is the same, whether or not there are blanks in front of it all. -/
structure LeadsAlike (blanks lead lead' : List UInt8) : Prop where
  empty : lead = [] → lead' = []
  longer : lead ≠ [] → lead' = lead ++ blanks

/-- What counts becomes all that was read, or stays as it is. -/
theorem LeadsAlike.pass {blanks lead lead' : List UInt8} (h : LeadsAlike blanks lead lead')
    (isSignificant : Bool) (read : List UInt8) (b : UInt8) (before : List UInt8) :
    LeadsAlike blanks (if isSignificant then read ++ b :: before else lead)
      (if isSignificant then read ++ b :: before ++ blanks else lead') := by
  cases isSignificant with
  | false => exact h
  | true =>
    constructor
    · intro hnil
      cases (List.append_eq_nil_iff.1 hnil).2
    · exact fun _ => rfl

/-- A slash is read in the same way, as the blanks end no word and no operand. -/
theorem allowsRegex_congr {blanks lead lead' : List UInt8}
    (hblanks : ∀ b ∈ blanks, isBlankByte b = true) (h : LeadsAlike blanks lead lead') :
    allowsRegex lead' = allowsRegex lead := by
  cases lead with
  | nil => rw [h.empty rfl]
  | cons b rest =>
    have hword : blanks.takeWhile isWordByte = [] := by
      cases blanks with
      | nil => rfl
      | cons blank _ =>
        rw [List.takeWhile_cons, isWordByte_of_isBlankByte (hblanks blank List.mem_cons_self)]
        rfl
    have hsame : (b :: rest ++ blanks).takeWhile isWordByte = (b :: rest).takeWhile isWordByte := by
      rw [List.takeWhile_append, hword, List.append_nil]
      split
      · next hall => exact (List.takeWhile_prefix _).eq_of_length hall |>.symm
      · rfl
    rw [h.longer (List.cons_ne_nil b rest)]
    show (opensOperand b || (isWordByte b && _)) = (opensOperand b || (isWordByte b && _))
    rw [hsame]

/-- A step depends on what is in front of it only by how a slash is read. -/
theorem step_congr {lead lead' : List UInt8} (h : allowsRegex lead' = allowsRegex lead)
    (depths : List Nat) (b : UInt8) (rest : List UInt8) :
    step lead' depths b rest = step lead depths b rest := by
  unfold step
  rw [h]

/-- A scan that starts behind blanks finds the same, further to the right. -/
theorem scanFrom_moved {blanks : List UInt8} (hblanks : ∀ b ∈ blanks, isBlankByte b = true)
    (count offset : Nat) (before lead lead' : List UInt8) (depths : List Nat) (rest : List UInt8)
    (h : LeadsAlike blanks lead lead') :
    scanFrom (count + offset) (before ++ blanks) lead' depths rest =
      (scanFrom offset before lead depths rest).map (Trivia.shift count) := by
  fun_induction scanFrom offset before lead depths rest generalizing lead' with
  | case1 => rw [scanFrom, List.map_nil]
  | case2 offset before lead depths b rest s finish read later kind hfound ih =>
    have hstep : step lead' depths b rest = s := step_congr (allowsRegex_congr hblanks h) _ _ _
    have hlater := ih _ (h.pass s.significant (rest.take s.extra).reverse b before)
    rw [scanFrom, hstep, hfound, List.map_cons, ← hlater]
    simp only [finish, read, Trivia.shift, Nat.add_assoc, List.append_assoc, List.cons_append]
  | case3 offset before lead depths b rest s finish read later hfound ih =>
    have hstep : step lead' depths b rest = s := step_congr (allowsRegex_congr hblanks h) _ _ _
    have hlater := ih _ (h.pass s.significant (rest.take s.extra).reverse b before)
    rw [scanFrom, hstep, hfound, ← hlater]
    simp only [finish, read, Nat.add_assoc, List.append_assoc, List.cons_append]

/-- Behind blanks a scan finds what it finds without them, further to the right. -/
theorem scan_blanks {blanks : List UInt8} (h : ∀ b ∈ blanks, isBlankByte b = true)
    (rest : List UInt8) :
    scan (blanks ++ rest) = (scan rest).map (Trivia.shift blanks.length) := by
  have hreverse : ∀ b ∈ blanks.reverse, isBlankByte b = true :=
    fun b hb => h b (List.mem_reverse.1 hb)
  rw [scan, scanFrom_blanks h, List.append_nil]
  exact scanFrom_moved hreverse _ 0 [] [] [] [] rest ⟨fun _ => rfl, fun hne => absurd rfl hne⟩

end Scan

/-! ## Texts in blank space -/

/-- A text and blank space to put in front of it. -/
structure Indent where
  text : String
  blanks : String
  mode : ScanMode
  nonempty : text ≠ ""
  blank : ∀ byte ∈ encoded blanks, isBlankByte byte = true

namespace Indent

variable (indent : Indent)

/-- The number of bytes in front of the text. -/
def width : Nat := indent.blanks.utf8ByteSize

/-- The text alone. -/
def source : Source := .ofString indent.text indent.mode

/-- The text behind the blank space. -/
def moved : Source := .ofString (indent.blanks ++ indent.text) indent.mode

/-- The bytes of the blanks come first, then those of the text. -/
theorem bytes_moved : indent.moved.bytes = encoded indent.blanks ++ indent.source.bytes := by
  show (indent.blanks ++ indent.text).toUTF8.data = _
  rw [String.toUTF8_eq_toByteArray, String.toByteArray_append, ByteArray.data_append]
  rfl

/-- The width is counted in bytes. -/
theorem size_encoded_blanks : (encoded indent.blanks).size = indent.width := rfl

/-- The longer text has as many bytes more as the blanks have. -/
theorem size_moved : indent.moved.size = indent.width + indent.source.size := by
  rw [Source.size, bytes_moved, Array.size_append, size_encoded_blanks]
  rfl

/-- Behind the blanks stand the bytes of the text. -/
theorem byteAt_moved (offset : Nat) :
    indent.moved.byteAt (indent.width + offset) = indent.source.byteAt offset := by
  rw [Source.byteAt, bytes_moved, ← size_encoded_blanks,
    Array.getElem?_append_right (Nat.le_add_right _ _), Nat.add_sub_cancel_left]
  rfl

/-- In front of the text stand blank bytes. -/
theorem byteAt_blank {offset : Nat} (h : offset < indent.width) :
    ∃ byte, indent.moved.byteAt offset = some byte ∧ isBlankByte byte = true := by
  have hsize : offset < (encoded indent.blanks).size := h
  have hbyte : indent.moved.byteAt offset = some (encoded indent.blanks)[offset] := by
    rw [Source.byteAt, bytes_moved, Array.getElem?_append_left hsize,
      Array.getElem?_eq_getElem hsize]
  exact ⟨_, hbyte, indent.blank _ (Array.getElem_mem hsize)⟩

/-- The text is not empty, so it has a first byte. -/
theorem size_pos : 0 < indent.source.size := by
  rw [Nat.pos_iff_ne_zero]
  intro hzero
  exact indent.nonempty (String.utf8ByteSize_eq_zero_iff.1 hzero)

/-- The table of the longer text is that of the text, moved. -/
theorem trivia_moved :
    indent.moved.trivia = indent.source.trivia.map (Trivia.shift indent.width) := by
  have hblanks : ∀ byte ∈ (encoded indent.blanks).toList, isBlankByte byte = true :=
    fun byte hbyte => indent.blank byte (Array.mem_toList_iff.1 hbyte)
  rw [Source.trivia_eq, Source.trivia_eq, bytes_moved, Array.toList_append,
    Scan.scan_blanks hblanks, List.map_toArray, Array.length_toList, size_encoded_blanks]

/-! ### Trivia -/

/-- What the longer text has in its table has been moved there. -/
theorem mem_trivia_moved {trivia : Trivia} : trivia ∈ indent.moved.trivia ↔
    ∃ found ∈ indent.source.trivia, found.shift indent.width = trivia := by
  rw [trivia_moved, Array.mem_map]

/-- A comment or literal covers a place of the text wherever the text stands. -/
theorem triviaAt_moved (offset : Nat) : indent.moved.triviaAt (indent.width + offset) =
    (indent.source.triviaAt offset).map (Trivia.shift indent.width) := by
  apply Option.ext
  intro trivia
  rw [Option.map_eq_some_iff, Source.triviaAt_eq_some_iff, mem_trivia_moved]
  constructor
  · rintro ⟨⟨found, hmem, rfl⟩, hstart, hfinish⟩
    refine ⟨found, (Source.triviaAt_eq_some_iff _).2 ⟨hmem, ?_, ?_⟩, rfl⟩
    · exact Nat.le_of_add_le_add_left hstart
    · exact Nat.lt_of_add_lt_add_left hfinish
  · rintro ⟨found, hfound, rfl⟩
    obtain ⟨hmem, hstart, hfinish⟩ := (Source.triviaAt_eq_some_iff _).1 hfound
    exact ⟨⟨found, hmem, rfl⟩, Nat.add_le_add_left hstart _, Nat.add_lt_add_left hfinish _⟩

/-- A place lies in a comment or literal in both texts or in neither. -/
theorem inTrivia_moved (offset : Nat) :
    indent.moved.inTrivia (indent.width + offset) = indent.source.inTrivia offset := by
  rw [Source.inTrivia, Source.inTrivia, triviaAt_moved, Option.isSome_map]
  rfl

/-! ### Boundaries and slices -/

/-- Characters begin at the same places of the text, at its very beginning too. -/
theorem isBoundary_moved (offset : Nat) :
    indent.moved.isBoundary (indent.width + offset) = indent.source.isBoundary offset := by
  cases offset with
  | zero =>
    -- both the text and the place where it has been moved to begin with a character
    have hmoved : indent.moved.isBoundary indent.width = true := by
      have hwidth := isBoundary_width indent.blanks.toList indent.text.toList
      rw [← utf8ByteSize_eq, ← String.toList_append, String.ofList_toList] at hwidth
      exact hwidth
    have hsource : indent.source.isBoundary 0 = true := by
      have hwidth := isBoundary_width [] indent.text.toList
      rw [List.nil_append, String.ofList_toList] at hwidth
      exact hwidth
    rw [Nat.add_zero, hmoved, hsource]
  | succ offset =>
    have hbyte := indent.byteAt_moved (offset + 1)
    have hsize := indent.size_moved
    rw [Source.byteAt, Source.byteAt] at hbyte
    rw [Source.size, Source.size] at hsize
    rw [Source.isBoundary, Source.isBoundary, Text.isBoundary, Text.isBoundary, hbyte, hsize]
    cases indent.source.bytes[offset + 1]? with
    | some byte =>
      have hpos : ∀ place : Nat, (place + 1 == 0) = false := fun _ => rfl
      show (indent.width + offset + 1 == 0 || _) = (offset + 1 == 0 || _)
      rw [hpos, hpos]
    | none =>
      show (indent.width + (offset + 1) == _) = (offset + 1 == _)
      rw [Bool.eq_iff_iff, beq_iff_eq, beq_iff_eq, Nat.add_left_cancel_iff]

/-- The bytes of a window move with it. -/
theorem extract_moved (start finish : Nat) :
    indent.moved.bytes.extract (indent.width + start) (indent.width + finish) =
      indent.source.bytes.extract start finish := by
  apply Array.ext_getElem?
  intro i
  have hbyte := indent.byteAt_moved (start + i)
  have hsize := indent.size_moved
  rw [Source.byteAt, Source.byteAt, ← Nat.add_assoc] at hbyte
  rw [Source.size, Source.size] at hsize
  rw [Array.getElem?_extract, Array.getElem?_extract, hbyte, hsize, Nat.add_min_add_left,
    Nat.add_sub_add_left]

/-- The text of a window moves with it. -/
theorem slice_moved (start finish : Nat) :
    indent.moved.slice (indent.width + start) (indent.width + finish) =
      indent.source.slice start finish := by
  rw [Source.slice, Source.slice, extract_moved, isBoundary_moved, isBoundary_moved, size_moved]
  simp only [Nat.add_le_add_iff_left]

/-- A range that has a span has one in the longer text. -/
theorem rangeSpan_moved {start finish : Nat} {span : Span}
    (h : indent.source.rangeSpan start finish = .ok span) :
    indent.moved.rangeSpan (indent.width + start) (indent.width + finish) =
      .ok (span.shift indent.width) := by
  rw [Source.rangeSpan] at h ⊢
  rw [isBoundary_moved, isBoundary_moved, size_moved]
  simp only [Nat.add_le_add_iff_left]
  split at h
  · next hrange =>
    cases h
    rw [if_pos hrange, Span.ofBounds_shift]
  · cases h

/-! ### Matches -/

/-- Bytes match at a place of the text, or not, wherever the text stands. -/
theorem matchesAt_moved (bytes : List UInt8) (offset : Nat) :
    indent.moved.matchesAt bytes (indent.width + offset) =
      indent.source.matchesAt bytes offset := by
  have hstarts : startsAt indent.moved.bytes bytes (indent.width + offset) =
      startsAt indent.source.bytes bytes offset := by
    rw [Bool.eq_iff_iff, Source.startsAt_iff, Source.startsAt_iff]
    refine forall₂_congr fun i hi => ?_
    rw [Nat.add_assoc, byteAt_moved]
  rw [Source.matchesAt, Source.matchesAt, hstarts, inTrivia_moved]

/-- The byte in front of the text, if there is any, is blank. -/
theorem byte_in_front (p : UInt8 → Bool) (h : ∀ byte, isBlankByte byte = true → p byte = false)
    (offset : Nat) :
    (indent.width + offset != 0 && (indent.moved.byteAt (indent.width + offset - 1)).any p) =
      (offset != 0 && (indent.source.byteAt (offset - 1)).any p) := by
  have hpos : ∀ place : Nat, (place + 1 != 0) = true := fun _ => rfl
  cases offset with
  | succ offset =>
    rw [Nat.add_sub_cancel, ← Nat.add_assoc, Nat.add_sub_cancel, byteAt_moved, hpos, hpos]
  | zero =>
    rw [Nat.add_zero]
    by_cases hwidth : indent.width = 0
    · rw [hwidth]
      rfl
    · have hlast : indent.width - 1 < indent.width :=
        Nat.sub_lt (Nat.pos_of_ne_zero hwidth) Nat.one_pos
      obtain ⟨byte, hbyte, hblank⟩ := indent.byteAt_blank hlast
      rw [hbyte, Option.any_some, h byte hblank, Bool.and_false]
      rfl

/-- Blanks bound words as the beginning of a text does. -/
theorem wordMatchesAt_moved (alphabetic : Bool) (bytes : List UInt8) (offset : Nat) :
    indent.moved.wordMatchesAt alphabetic bytes (indent.width + offset) =
      indent.source.wordMatchesAt alphabetic bytes offset := by
  rw [Source.wordMatchesAt, Source.wordMatchesAt, matchesAt_moved, Nat.add_assoc, byteAt_moved,
    byte_in_front indent _ fun _ => isWordByte_of_isBlankByte]

/-- A keyword stands at a place of the text, or not, wherever the text stands. -/
theorem hasWordAt_moved (word : String) (offset : Nat) :
    indent.moved.hasWordAt word (indent.width + offset) = indent.source.hasWordAt word offset := by
  rw [Source.hasWordAt, Source.hasWordAt, wordMatchesAt_moved, size_moved]
  simp only [Nat.add_lt_add_iff_left]

end Indent

/-- Does the text begin with a byte that is not blank? -/
def Text.isSolid (text : String) : Bool := (pattern text).head?.any fun byte => !isBlankByte byte

namespace Indent

variable (indent : Indent)

/-- No token that begins with another byte than a blank matches in the blanks. -/
theorem matchesAt_blank {token : String} (htoken : isSolid token = true) {offset : Nat}
    (h : offset < indent.width) : indent.moved.matchesAt (pattern token) offset = false := by
  obtain ⟨byte, hbyte, hblank⟩ := indent.byteAt_blank h
  rw [Bool.eq_false_iff]
  intro hmatch
  rw [Source.matchesAt, Bool.and_eq_true] at hmatch
  rw [isSolid] at htoken
  cases hpattern : pattern token with
  | nil =>
    rw [hpattern] at htoken
    cases htoken
  | cons first rest =>
    rw [hpattern] at htoken hmatch
    have hfirst := (indent.moved.startsAt_iff.1 hmatch.1) 0 (Nat.zero_lt_succ _)
    rw [Nat.add_zero, hbyte] at hfirst
    cases hfirst
    have hblank : isBlankByte first = true := hblank
    rw [List.head?_cons, Option.any_some, hblank] at htoken
    cases htoken

/-- No word matches in the blanks. -/
theorem wordMatchesAt_blank {word : String} (hword : isSolid word = true) (alphabetic : Bool)
    {offset : Nat} (h : offset < indent.width) :
    indent.moved.wordMatchesAt alphabetic (pattern word) offset = false := by
  rw [Source.wordMatchesAt, indent.matchesAt_blank hword h, Bool.false_and]

/-- No keyword stands in the blanks. -/
theorem hasWordAt_blank {word : String} (hword : isSolid word = true) {offset : Nat}
    (h : offset < indent.width) : indent.moved.hasWordAt word offset = false := by
  rw [Source.hasWordAt, indent.wordMatchesAt_blank hword _ h, Bool.and_false]

/-! ### Searches -/

/-- A window moves with the text, or it begins with the text in both cases. -/
def Low (start start' : Nat) : Prop := start' = indent.width + start ∨ start = 0 ∧ start' = 0

section Windows

variable {indent} {test moved : Nat → Bool}
  (h : ∀ offset, moved (indent.width + offset) = test offset)

include h

/-- A search from the front finds the same place of the text. -/
theorem firstFrom_moved (start count : Nat) :
    Search.firstFrom moved (indent.width + start) count =
      (Search.firstFrom test start count).map (indent.width + ·) := by
  induction count generalizing start with
  | zero => rfl
  | succ count ih =>
    rw [Search.firstFrom, Search.firstFrom, h]
    split
    · rfl
    · exact ih (start + 1)

/-- A search from the end finds the same place of the text. -/
theorem lastFrom_moved (start count : Nat) :
    Search.lastFrom moved (indent.width + start) count =
      (Search.lastFrom test start count).map (indent.width + ·) := by
  induction count with
  | zero => rfl
  | succ count ih =>
    rw [Search.lastFrom, Search.lastFrom, Nat.add_assoc, h]
    split
    · rfl
    · exact ih

/-- In the blank space nothing passes the test. -/
theorem lastFrom_low (hblank : ∀ offset < indent.width, moved offset = false) {start start' : Nat}
    (hlow : indent.Low start start') (finish size : Nat) :
    Search.lastFrom moved start' (min (indent.width + finish) (indent.width + size) - start') =
      (Search.lastFrom test start (min finish size - start)).map (indent.width + ·) := by
  rw [Nat.add_min_add_left]
  rcases hlow with rfl | ⟨rfl, rfl⟩
  · rw [Nat.add_sub_add_left]
    exact lastFrom_moved h _ _
  · rw [Nat.sub_zero, Nat.sub_zero]
    -- The moved search begins with the blanks. It looks at them last, and finds nothing there.
    induction min finish size with
    | succ count ih =>
      rw [← Nat.add_assoc, Search.lastFrom, Search.lastFrom, Nat.zero_add, Nat.zero_add, h]
      split
      · rfl
      · exact ih
    | zero =>
      have hnone : ∀ count ≤ indent.width, Search.lastFrom moved 0 count = none := by
        intro count hcount
        induction count with
        | zero => rfl
        | succ count ih =>
          rw [Search.lastFrom, Nat.zero_add, hblank count hcount, if_neg Bool.false_ne_true]
          exact ih (Nat.le_of_succ_le hcount)
      rw [Nat.add_zero, hnone _ (Nat.le_refl _)]
      rfl

end Windows

/-- The first match of a token moves with its window. -/
theorem find_moved (token : String) (start finish : Nat) :
    indent.moved.find token (indent.width + start) (indent.width + finish) =
      (indent.source.find token start finish).map (indent.width + ·) := by
  rw [Source.find, Source.find, size_moved, Nat.add_min_add_left, Nat.add_sub_add_left]
  exact firstFrom_moved (indent.matchesAt_moved _) _ _

/-- The first match of a word moves with its window. -/
theorem findWord_moved (word : String) (start finish : Nat) :
    indent.moved.findWord word (indent.width + start) (indent.width + finish) =
      (indent.source.findWord word start finish).map (indent.width + ·) := by
  rw [Source.findWord, Source.findWord, size_moved, Nat.add_min_add_left, Nat.add_sub_add_left]
  exact firstFrom_moved (indent.wordMatchesAt_moved _ _) _ _

/-- The last match of a token moves with its window. -/
theorem findLast_moved (token : String) (start finish : Nat) :
    indent.moved.findLast token (indent.width + start) (indent.width + finish) =
      (indent.source.findLast token start finish).map (indent.width + ·) := by
  rw [Source.findLast, Source.findLast, size_moved, Nat.add_min_add_left, Nat.add_sub_add_left]
  exact lastFrom_moved (indent.matchesAt_moved _) _ _

section Low

variable {start start' : Nat} (hlow : indent.Low start start') (finish : Nat)

include hlow

/-- The window may begin in front of the blanks, for no token matches in them. -/
theorem findLast_low {token : String} (htoken : isSolid token = true) :
    indent.moved.findLast token start' (indent.width + finish) =
      (indent.source.findLast token start finish).map (indent.width + ·) := by
  rw [Source.findLast, Source.findLast, size_moved]
  exact lastFrom_low (indent.matchesAt_moved _)
    (fun _ hoffset => indent.matchesAt_blank htoken hoffset) hlow _ _

/-- The same goes for the last match of a word. -/
theorem findLastWord_low {word : String} (hword : isSolid word = true) :
    indent.moved.findLastWord word start' (indent.width + finish) =
      (indent.source.findLastWord word start finish).map (indent.width + ·) := by
  rw [Source.findLastWord, Source.findLastWord, size_moved]
  exact lastFrom_low (indent.wordMatchesAt_moved _ _)
    (fun _ hoffset => indent.wordMatchesAt_blank hword _ hoffset) hlow _ _

/-- There are no string literals in the blank space. -/
theorem findString_low (content : String) :
    indent.moved.findString content start' (indent.width + finish) =
      (indent.source.findString content start finish).map (Range.shift indent.width) := by
  have htest : ∀ trivia : Trivia,
      (start' ≤ (trivia.shift indent.width).start &&
        (trivia.shift indent.width).start < indent.width + finish &&
        indent.moved.isQuoted (pattern content) (trivia.shift indent.width)) =
      (start ≤ trivia.start && trivia.start < finish &&
        indent.source.isQuoted (pattern content) trivia) := by
    intro trivia
    have hstart : start' ≤ indent.width + trivia.start ↔ start ≤ trivia.start := by
      rcases hlow with rfl | ⟨rfl, rfl⟩ <;> omega
    simp only [Source.isQuoted, Trivia.shift, extract_moved, Nat.add_lt_add_iff_left, hstart]
  rw [Source.findString, Source.findString, trivia_moved, Array.find?_map, Option.map_map,
    Option.map_map]
  simp only [Function.comp_def, htest]
  rfl

end Low

/-! ### Semicolons -/

/-- What is skipped at a place of the text does not depend on where the text stands. -/
theorem skipped_moved (offset : Nat) : indent.moved.skipped (indent.width + offset) =
    (indent.source.skipped offset).map (Trivia.shift indent.width) := by
  rw [Source.skipped, Source.skipped, triviaAt_moved, Option.filter_map]
  rfl

/-- Neither blanks nor comments are significant, wherever they stand. -/
theorem nextSignificant_moved (offset : Nat) :
    indent.moved.nextSignificant (indent.width + offset) =
      (indent.source.nextSignificant offset).map (indent.width + ·) := by
  -- each step goes on behind the offset
  induction hleft : indent.source.size - offset using Nat.strong_induction_on
    generalizing offset with
  | h left ih =>
    subst hleft
    by_cases hsize : indent.source.size ≤ offset
    · have hmoved : indent.moved.size ≤ indent.width + offset := by
        rw [size_moved]
        exact Nat.add_le_add_left hsize _
      rw [Source.nextSignificant_of_size_le hsize, Source.nextSignificant_of_size_le hmoved]
      rfl
    obtain ⟨byte, hbyte⟩ : ∃ byte, indent.source.byteAt offset = some byte :=
      ⟨_, Array.getElem?_eq_getElem (Nat.not_le.1 hsize)⟩
    rw [Source.nextSignificant_of_byte hbyte,
      Source.nextSignificant_of_byte ((indent.byteAt_moved offset).trans hbyte), skipped_moved]
    cases hskipped : indent.source.skipped offset with
    | none =>
      dsimp only [Option.map_none, Option.elim_none]
      split
      · exact ih _ (by omega) (offset + 1) rfl
      · rfl
    | some trivia =>
      have hfinish := Source.lt_finish_of_triviaAt (Option.filter_eq_some_iff.1 hskipped).1
      exact ih _ (by omega) trivia.finish rfl

/-- A statement is ended by a semicolon in both texts or in neither. -/
theorem endsWithSemicolon_moved (finish : Nat) :
    indent.moved.endsWithSemicolon (indent.width + finish) =
      indent.source.endsWithSemicolon finish := by
  have hnext : (indent.moved.nextSignificant (indent.width + finish)).bind indent.moved.byteAt =
      (indent.source.nextSignificant finish).bind indent.source.byteAt := by
    rw [nextSignificant_moved, Option.bind_map]
    exact congrArg _ (funext indent.byteAt_moved)
  have hbefore : (indent.width + finish != 0 &&
      indent.moved.byteAt (indent.width + finish - 1) == some 0x3B) =
        (finish != 0 && indent.source.byteAt (finish - 1) == some 0x3B) := by
    have hany : ∀ found : Option UInt8, (found == some 0x3B) = found.any (· == 0x3B) := by
      intro found
      cases found <;> rfl
    rw [hany, hany]
    exact indent.byte_in_front _ (fun _ => ne_semicolon_of_isBlankByte) finish
  rw [Source.endsWithSemicolon, Source.endsWithSemicolon, hnext, hbefore]

/-! ### Locating -/

section Locating

variable {indent : Indent} {context token : String} {start start' finish offset : Nat}

/-- A token that is located in the text is located in the longer one. -/
theorem locate_moved (h : indent.source.locate context token start finish = .ok offset) :
    indent.moved.locate context token (indent.width + start) (indent.width + finish) =
      .ok (indent.width + offset) := by
  rw [Source.locate_eq_ok_iff] at h ⊢
  rw [find_moved, h, Option.map_some]

/-- A word that is located in the text is located in the longer one. -/
theorem locateWord_moved (h : indent.source.locateWord context token start finish = .ok offset) :
    indent.moved.locateWord context token (indent.width + start) (indent.width + finish) =
      .ok (indent.width + offset) := by
  rw [Source.locateWord_eq_ok_iff] at h ⊢
  rw [findWord_moved, h, Option.map_some]

/-- So is the last match of a token. -/
theorem locateLast_moved (h : indent.source.locateLast context token start finish = .ok offset) :
    indent.moved.locateLast context token (indent.width + start) (indent.width + finish) =
      .ok (indent.width + offset) := by
  rw [Source.locateLast_eq_ok_iff] at h ⊢
  rw [findLast_moved, h, Option.map_some]

variable (hlow : indent.Low start start')
include hlow

/-- So it is in a window that begins in front of the blanks. -/
theorem locateLast_low (htoken : isSolid token = true)
    (h : indent.source.locateLast context token start finish = .ok offset) :
    indent.moved.locateLast context token start' (indent.width + finish) =
      .ok (indent.width + offset) := by
  rw [Source.locateLast_eq_ok_iff] at h ⊢
  rw [findLast_low _ hlow _ htoken, h, Option.map_some]

/-- The last match of a word is, too. -/
theorem locateLastWord_low (htoken : isSolid token = true)
    (h : indent.source.locateLastWord context token start finish = .ok offset) :
    indent.moved.locateLastWord context token start' (indent.width + finish) =
      .ok (indent.width + offset) := by
  rw [Source.locateLastWord_eq_ok_iff] at h ⊢
  rw [findLastWord_low _ hlow _ htoken, h, Option.map_some]

/-- String literals are located in such windows, too. -/
theorem locateString_low {range : Range}
    (h : indent.source.locateString context token start finish = .ok range) :
    indent.moved.locateString context token start' (indent.width + finish) =
      .ok (range.shift indent.width) := by
  rw [Source.locateString_eq_ok_iff] at h ⊢
  rw [findString_low _ hlow, h, Option.map_some]

end Locating

/-- A word that should stand so many bytes in front of a place does so in both texts, or in none. -/
theorem hasWordBefore_moved (indent : Indent) {word : String} (hword : isSolid word = true)
    (length place : Nat) :
    (length ≤ indent.width + place &&
        indent.moved.hasWordAt word (indent.width + place - length)) =
      (length ≤ place && indent.source.hasWordAt word (place - length)) := by
  by_cases hle : length ≤ place
  · have hplace : indent.width + place - length = indent.width + (place - length) := by omega
    rw [hplace, hasWordAt_moved, decide_eq_true hle,
      decide_eq_true (hle.trans (Nat.le_add_left _ _))]
  · rw [decide_eq_false hle, Bool.false_and, Bool.and_eq_false_iff]
    by_cases hfits : length ≤ indent.width + place
    · exact .inr (indent.hasWordAt_blank hword (by omega))
    · exact .inl (decide_eq_false hfits)

/-- A keyword that should stand just in front of a name, or else somewhere in the gap before it. -/
theorem locateWordBefore_moved {indent : Indent} {context word : String}
    (hword : isSolid word = true) {start start' : Nat} (hlow : indent.Low start start')
    {length place offset : Nat}
    (h : indent.source.locateWordAtOrBefore context word
      (if length ≤ place then some (place - length) else none) start place = .ok offset) :
    indent.moved.locateWordAtOrBefore context word
      (if length ≤ indent.width + place then some (indent.width + place - length) else none) start'
      (indent.width + place) = .ok (indent.width + offset) := by
  have hfilter : ∀ (source : Source) (place : Nat),
      (if length ≤ place then some (place - length) else none).filter (source.hasWordAt word) =
        if length ≤ place && source.hasWordAt word (place - length) then some (place - length)
        else none := by
    intro source place
    by_cases hle : length ≤ place
    · rw [if_pos hle, Option.filter_some, decide_eq_true hle, Bool.true_and]
    · rw [if_neg hle, decide_eq_false hle, Bool.false_and]
      rfl
  rw [Source.locateWordAtOrBefore, hfilter] at h ⊢
  rw [hasWordBefore_moved indent hword]
  by_cases hfound : (length ≤ place && indent.source.hasWordAt word (place - length)) = true
  · rw [if_pos hfound] at h ⊢
    cases h
    have hle := of_decide_eq_true (Bool.and_eq_true_iff.1 hfound).1
    exact congrArg Except.ok (Nat.add_sub_assoc hle _)
  · rw [if_neg hfound] at h ⊢
    exact locateLastWord_low hlow hword h

end Indent

end Concretion
