import Concretion.Proofs.Scanned
import Concretion.Proofs.Checked
import Concretion.Proofs.Written.Marks
import Concretion.Recovery.Locate

/-!
# Searching written texts

A page is a text that is given by its marks. What is searched for in a page is found where the marks
have it: the text of marks can be cut out, no search looks into their comments, and a token that
follows upon marks without its first character is the first match there.

- `Page.At`: the marks that stand at an offset of a page.
- `Page.At.slice`, `Page.At.rangeSpan`: their text and their span.
- `Page.At.find`, `Page.At.findWord`: searches for a token behind marks without its first character.
-/

namespace Concretion

open Text Mark

/-- A text given by its marks. -/
structure Page where
  marks : List Mark
  plain : ∀ mark ∈ marks, mark.isPlain

namespace Page

variable (page : Page)

/-- The text of a page, prepared for searches that skip comments. -/
def source : Source := .ofString (String.ofList (text page.marks)) .skipTrivia

/-- The marks stand at the offset. -/
def At (offset : Nat) (marks : List Mark) : Prop :=
  ∃ before behind, page.marks = before ++ marks ++ behind ∧ size before = offset

/-- The first character of a token, which is neither white space nor beyond ASCII. -/
structure StartsWith (token : String) (d : Char) : Prop where
  head : token.toList.head? = some d
  ascii : isAscii d
  visible : isSpace d = false

theorem bytes_source : page.source.bytes.toList = bytesOf (text page.marks) :=
  encoded_ofList _

theorem size_source : page.source.size = size page.marks := size_encoded _

theorem trivia_source : page.source.trivia.toList = comments 0 page.marks := by
  rw [Source.trivia_eq, bytes_source, Scan.scan_marks page.plain]

namespace At

variable {page : Page} {offset : Nat} {a b marks : List Mark}

theorem left (h : page.At offset (a ++ b)) : page.At offset a := by
  obtain ⟨before, behind, hmarks, hsize⟩ := h
  exact ⟨before, b ++ behind, by rw [hmarks]; simp only [List.append_assoc], hsize⟩

theorem right (h : page.At offset (a ++ b)) : page.At (offset + size a) b := by
  obtain ⟨before, behind, hmarks, hsize⟩ := h
  refine ⟨before ++ a, behind, by rw [hmarks]; simp only [List.append_assoc], ?_⟩
  rw [size_append, hsize]

theorem le_size (h : page.At offset marks) : offset + size marks ≤ page.source.size := by
  obtain ⟨before, behind, hmarks, hsize⟩ := h
  rw [size_source, hmarks, size_append, size_append]
  omega

/-! ## Bytes -/

theorem drop (h : page.At offset marks) :
    bytesOf (text marks) <+: page.source.bytes.toList.drop offset := by
  obtain ⟨before, behind, hmarks, rfl⟩ := h
  rw [bytes_source, hmarks, List.append_assoc, text_append, bytesOf_append, text_append,
    bytesOf_append, Mark.size, ← length_bytesOf, List.drop_left]
  exact List.prefix_append _ _

theorem byteAt (h : page.At offset marks) {i : Nat} (hi : i < size marks) :
    page.source.bytes[offset + i]? = (bytesOf (text marks))[i]? := by
  obtain ⟨rest, hrest⟩ := h.drop
  rw [← Array.getElem?_toList, ← List.getElem?_drop, ← hrest,
    List.getElem?_append_left (by rwa [length_bytesOf])]

theorem isBoundary (h : page.At offset marks) : page.source.isBoundary offset = true := by
  obtain ⟨before, behind, hmarks, rfl⟩ := h
  have htext : text page.marks = text before ++ text (marks ++ behind) := by
    rw [hmarks, List.append_assoc, text_append]
  have hboundary := isBoundary_width (text before) (text (marks ++ behind))
  rw [← htext] at hboundary
  exact hboundary

theorem behind (h : page.At offset marks) : page.At (offset + size marks) [] := by
  rw [← List.append_nil marks] at h
  exact h.right

/-- No character is cut in two at either end of marks. -/
theorem inside (h : page.At offset marks) :
    (offset ≤ offset + size marks && offset + size marks ≤ page.source.size &&
      page.source.isBoundary offset && page.source.isBoundary (offset + size marks)) = true := by
  simp only [h.isBoundary, h.behind.isBoundary, Bool.and_true, Bool.and_eq_true, decide_eq_true_eq]
  exact ⟨Nat.le_add_right _ _, h.le_size⟩

theorem slice (h : page.At offset marks) :
    page.source.slice offset (offset + size marks) = some (String.ofList (text marks)) := by
  have hextract : page.source.bytes.extract offset (offset + size marks) =
      (bytesOf (text marks)).toArray := by
    obtain ⟨rest, hrest⟩ := h.drop
    apply Array.toList_inj.1
    rw [Array.toList_extract, List.extract_eq_take_drop, ← hrest, Nat.add_sub_cancel_left,
      Mark.size, ← length_bytesOf, List.take_left]
  rw [Source.slice, if_pos h.inside, hextract, fromUTF8_bytesOf]

theorem rangeSpan (h : page.At offset marks) :
    page.source.rangeSpan offset (offset + size marks) =
      .ok (Span.ofBounds offset (offset + size marks)) := by
  rw [Source.rangeSpan, if_pos h.inside]

/-! ## Comments -/

/-- Inside of a mark, only its own comment is skipped. -/
theorem inTrivia_iff {mark : Mark} (h : page.At offset [mark]) {i : Nat} (hlow : offset ≤ i)
    (hhigh : i < offset + size [mark]) :
    page.source.inTrivia i = true ↔ ∃ trivia, mark.comment? offset = some trivia ∧
      i < trivia.finish := by
  obtain ⟨before, behind, hmarks, hsize⟩ := h
  have hmem : ∀ trivia, trivia ∈ page.source.trivia ↔ trivia ∈ comments 0 before ∨
      mark.comment? offset = some trivia ∨ trivia ∈ comments (offset + size [mark]) behind := by
    intro trivia
    rw [← Array.mem_toList_iff, trivia_source, hmarks, comments_append, comments_append,
      List.mem_append, List.mem_append, size_append, hsize, or_assoc, comments, comments,
      List.append_nil, Option.mem_toList, Nat.zero_add, Nat.zero_add]
  have hmode : page.source.inTrivia i = (page.source.triviaAt i).isSome := rfl
  rw [hmode, Option.isSome_iff_exists]
  constructor
  · rintro ⟨trivia, htrivia⟩
    obtain ⟨hin, hstart, hfinish⟩ := page.source.triviaAt_eq_some_iff.1 htrivia
    -- Comments of the marks in front end before this one, and those behind begin after it.
    rcases (hmem trivia).1 hin with hin | hin | hin
    · have := comments_bounds hin
      omega
    · exact ⟨trivia, hin, hfinish⟩
    · have := comments_bounds hin
      omega
  · rintro ⟨trivia, htrivia, hfinish⟩
    obtain ⟨hstart, -⟩ := comment_bounds htrivia
    exact ⟨trivia, page.source.triviaAt_eq_some_iff.2
      ⟨(hmem trivia).2 (.inr (.inl htrivia)), by omega, hfinish⟩⟩

/-- No search skips a character of code. -/
theorem inTrivia_code {c : Char} (h : page.At offset [.code c]) :
    page.source.inTrivia offset = false := by
  refine Bool.eq_false_iff.2 fun htrivia => ?_
  have hpos : 0 < size [.code c] := by
    show 0 < c.utf8Size + 0
    exact c.utf8Size_pos
  obtain ⟨trivia, hnone, -⟩ := (h.inTrivia_iff (Nat.le_refl _) (by omega)).1 htrivia
  cases hnone

/-! ## Matches -/

/-- A token starts where its first character stands as code. -/
theorem matchesAt_token {chars : List Char} (h : page.At offset (spell chars)) (hne : chars ≠ []) :
    page.source.matchesAt (bytesOf chars) offset = true := by
  obtain ⟨c, rest, rfl⟩ := List.exists_cons_of_ne_nil hne
  have hfirst : page.At offset [.code c] := left (b := spell rest) h
  have hprefix := h.drop
  rw [text_spell] at hprefix
  rw [Source.matchesAt, startsAt_eq, hfirst.inTrivia_code, Bool.not_false, Bool.and_true]
  exact List.isPrefixOf_iff_prefix.2 hprefix

theorem byteAt_of_matchesAt {source : Source} {b : UInt8} {more : List UInt8} {i : Nat}
    (h : source.matchesAt (b :: more) i = true) :
    source.bytes[i]? = some b ∧ source.inTrivia i = false := by
  rw [Source.matchesAt, startsAt, Bool.and_eq_true, Bool.and_eq_true, Bool.not_eq_true'] at h
  exact ⟨eq_of_beq h.1.1, h.2⟩

/-- The first byte of a token does not stand in a mark other than that character, unless it is in
the comment. -/
theorem matchesAt_other {mark : Mark} {d : Char} {more : List UInt8} (h : page.At offset [mark])
    (hother : mark ≠ .code d) (hascii : isAscii d) (hspace : isSpace d = false) {i : Nat}
    (hlow : offset ≤ i) (hhigh : i < offset + size [mark]) :
    page.source.matchesAt (UInt8.ofNat d.toNat :: more) i = false := by
  refine Bool.eq_false_iff.2 fun hmatch => ?_
  obtain ⟨hbyte, htrivia⟩ := byteAt_of_matchesAt hmatch
  have hskip : ∀ trivia, mark.comment? offset = some trivia → trivia.finish ≤ i := by
    intro trivia hcomment
    refine Nat.not_lt.1 fun hlt => ?_
    rw [(h.inTrivia_iff hlow hhigh).2 ⟨trivia, hcomment, hlt⟩] at htrivia
    cases htrivia
  obtain ⟨k, rfl⟩ := Nat.exists_eq_add_of_le hlow
  rw [h.byteAt (by omega)] at hbyte
  -- a character of the mark that has the byte is the first one of the token
  have hsame : ∀ c, UInt8.ofNat d.toNat ∈ String.utf8EncodeChar c → c = d :=
    fun c hmem => eq_of_mem_utf8EncodeChar hascii hmem
  cases mark with
  | code c =>
    have hmem : UInt8.ofNat d.toNat ∈ bytesOf [c] := List.mem_of_getElem? hbyte
    rw [bytesOf_cons, bytesOf_nil, List.append_nil] at hmem
    exact hother (congrArg Mark.code (hsame c hmem))
  | filler piece =>
    cases piece with
    | blank c space =>
      have hmem : UInt8.ofNat d.toNat ∈ bytesOf [c] := List.mem_of_getElem? hbyte
      rw [bytesOf_cons, bytesOf_nil, List.append_nil] at hmem
      rw [hsame c hmem, hspace] at space
      cases space
    | block content complete =>
      have hend := hskip _ rfl
      rw [size_filler, width_block] at hhigh
      simp only at hend
      omega
    | line content oneLine =>
      -- behind the comment there is only the line feed
      have hend := hskip _ rfl
      rw [size_filler, width_line] at hhigh
      simp only at hend
      have hchars : text [.filler (.line content oneLine)] = '/' :: '/' :: content ++ ['\n'] :=
        List.append_nil _
      have hwidth : width ('/' :: '/' :: content) = k := by
        show 1 + (1 + width content) = k
        omega
      rw [hchars, bytesOf_append, List.getElem?_append_right (by rw [length_bytesOf, hwidth]),
        length_bytesOf, hwidth, Nat.sub_self] at hbyte
      have hmem : UInt8.ofNat d.toNat ∈ String.utf8EncodeChar '\n' := List.mem_of_getElem? hbyte
      rw [← hsame '\n' hmem] at hspace
      cases hspace

/-- The first byte of a token stands nowhere in marks without its first character, comments
aside. -/
theorem matchesAt_idle {d : Char} {more : List UInt8} (h : page.At offset marks)
    (hidle : .code d ∉ marks) (hascii : isAscii d) (hspace : isSpace d = false) {i : Nat}
    (hlow : offset ≤ i) (hhigh : i < offset + size marks) :
    page.source.matchesAt (UInt8.ofNat d.toNat :: more) i = false := by
  induction marks generalizing offset with
  | nil =>
    rw [size_nil] at hhigh
    omega
  | cons mark rest ih =>
    rw [← List.singleton_append] at h
    rw [List.mem_cons, not_or] at hidle
    rw [size_cons] at hhigh
    by_cases hmark : i < offset + size [mark]
    · exact h.left.matchesAt_other (Ne.symm hidle.1) hascii hspace hlow hmark
    · exact ih h.right hidle.2 (by omega) (by omega)

/-! ## Searches -/

theorem slice_token {token : String} (h : page.At offset (spell token.toList)) :
    page.source.slice offset (offset + token.utf8ByteSize) = some token := by
  have hslice := h.slice
  rwa [size_spell, ← utf8ByteSize_eq, text_spell, String.ofList_toList] at hslice

variable {token : String} {d : Char} {idle rest : List Mark}

/-- Behind marks without its first character a token has its first match. -/
theorem matchesAt_first (h : page.At offset (idle ++ (spell token.toList ++ rest)))
    (hd : StartsWith token d) (hidle : .code d ∉ idle) :
    page.source.matchesAt (pattern token) (offset + size idle) = true ∧
      offset + size idle < page.source.size ∧
      ∀ i, offset ≤ i → i < offset + size idle →
        page.source.matchesAt (pattern token) i = false := by
  obtain ⟨hhead, hascii, hvisible⟩ := hd
  obtain ⟨more, hmore⟩ := List.head?_eq_some_iff.1 hhead
  have htoken := h.right.left
  have hpattern : pattern token = UInt8.ofNat d.toNat :: bytesOf more := by
    rw [pattern_eq, hmore, bytesOf_cons, bytes_of_isAscii hascii, List.singleton_append]
  refine ⟨?_, ?_, fun i hlow hhigh => ?_⟩
  · rw [pattern_eq]
    exact htoken.matchesAt_token (by rw [hmore]; exact List.cons_ne_nil d more)
  · have hle := htoken.le_size
    have hpos : 0 < size (spell token.toList) := by
      rw [size_spell, hmore, width_cons]
      exact Nat.add_pos_left d.utf8Size_pos _
    omega
  · rw [hpattern]
    exact h.left.matchesAt_idle hidle hascii hvisible hlow hhigh

/-- A search for a token stops at its first match. -/
theorem find (h : page.At offset (idle ++ (spell token.toList ++ rest))) (hd : StartsWith token d)
    (hidle : .code d ∉ idle) {finish : Nat} (hfinish : offset + size idle < finish) :
    page.source.find token offset finish = some (offset + size idle) := by
  obtain ⟨hat, hsize, hbefore⟩ := h.matchesAt_first hd hidle
  exact Search.firstFrom_eq_some_iff.2 ⟨hat, Nat.le_add_right _ _, by omega, hbefore⟩

/-! ### Words -/

/-- The last byte of marks that do not end in a word. -/
theorem byteAt_last (h : page.At offset marks)
    (hlast : (text marks).getLast?.any fun c => !isWordChar c) :
    0 < size marks ∧
      (page.source.byteAt (offset + size marks - 1)).any isWordByte = false := by
  obtain ⟨c, hc, hword⟩ := (Option.any_eq_true _ _).1 hlast
  obtain ⟨init, hinit⟩ := List.getLast?_eq_some_iff.1 hc
  obtain ⟨hascii, hbyte⟩ := isWordByte_of_isWordChar (Bool.not_eq_eq_eq_not.1 hword)
  have hsize : size marks = width init + 1 := by
    rw [size, hinit, width_append, ← length_bytesOf [c], bytesOf_cons, bytes_of_isAscii hascii]
    rfl
  have hplace : offset + size marks - 1 = offset + width init := by omega
  refine ⟨by omega, ?_⟩
  rw [hplace, Source.byteAt, h.byteAt (by omega), hinit, bytesOf_append, ← length_bytesOf,
    List.getElem?_append_right (Nat.le_refl _), Nat.sub_self, bytesOf_cons,
    bytes_of_isAscii hascii]
  exact hbyte

/-- The first byte of marks that do not start with a word. -/
theorem byteAt_first (h : page.At offset marks)
    (hfirst : (text marks).head?.any fun c => !isWordChar c) :
    (page.source.byteAt offset).any isWordByte = false := by
  obtain ⟨c, hc, hword⟩ := (Option.any_eq_true _ _).1 hfirst
  obtain ⟨more, hmore⟩ := List.head?_eq_some_iff.1 hc
  obtain ⟨hascii, hbyte⟩ := isWordByte_of_isWordChar (Bool.not_eq_eq_eq_not.1 hword)
  have hbytes : bytesOf (text marks) = UInt8.ofNat c.toNat :: bytesOf more := by
    rw [hmore, bytesOf_cons, bytes_of_isAscii hascii, List.singleton_append]
  have hpos : 0 < size marks := by
    rw [size, ← length_bytesOf, hbytes]
    exact Nat.succ_pos _
  have hat := h.byteAt hpos
  rw [Nat.add_zero, hbytes] at hat
  rw [Source.byteAt, hat]
  exact hbyte

/-- A word that is kept apart from other words is found as other tokens are. -/
theorem findWord {front : List Mark}
    (h : page.At offset (front ++ (idle ++ (spell token.toList ++ rest))))
    (hd : StartsWith token d) (hidle : .code d ∉ idle)
    (hbefore : (text (front ++ idle)).getLast?.any fun c => !isWordChar c)
    (hbehind : (text rest).head?.any fun c => !isWordChar c) {finish : Nat}
    (hfinish : offset + size front + size idle < finish) :
    page.source.findWord token (offset + size front) finish =
      some (offset + size front + size idle) := by
  obtain ⟨hat, hsize, hearlier⟩ := h.right.matchesAt_first hd hidle
  have hfront : page.At offset (front ++ idle) := by
    rw [← List.append_assoc] at h
    exact h.left
  obtain ⟨hpos, hlast⟩ := hfront.byteAt_last hbefore
  have hfirst := h.right.right.right.byteAt_first hbehind
  have hlength : size (spell token.toList) = (pattern token).length := by
    rw [size_spell, pattern_eq, length_bytesOf]
  rw [size_append] at hpos hlast
  have hword : page.source.wordMatchesAt (isAlphabetic token) (pattern token)
      (offset + size front + size idle) = true := by
    rw [Source.wordMatchesAt, hat, ← hlength, hfirst, Nat.add_assoc, hlast]
    simp
  refine Search.firstFrom_eq_some_iff.2
    ⟨hword, Nat.le_add_right _ _, by omega, fun i hlow hhigh => ?_⟩
  rw [Source.wordMatchesAt, hearlier i hlow hhigh, Bool.false_and]

end At

end Page

end Concretion
