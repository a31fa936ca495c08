import Concretion.Proofs.Written.Chars
import Concretion.Proofs.Written.Phrase
import Concretion.Proofs.Written.Seek

/-!
# Keywords on pages

A keyword is looked for from behind, and first of all at the one place that is a single byte in
front of a name. On a page both are decided by the marks in front of the name.

- `Mark.endsInWord`: marks whose last word is the given one.
- `Keyword`: words of letters that have their first letter just once.
- `Page.At.findLastWord`, `Page.At.eq_of_hasWordAt`: a keyword in front of marks that lack its first
  letter is the only place at which it is found.
- `Page.At.hasWordAt_comma`: when a keyword is found one byte in front of what is behind a comma.
-/

namespace Concretion

open Text Mark

/-! ## Letters -/

namespace Text

theorem isAscii_of_isAlpha {c : Char} (h : c.isAlpha) : isAscii c := by
  have hle : c.toNat ≤ 'z'.toNat := by
    rcases Bool.or_eq_true_iff.1 h with hupper | hlower
    · have hletter : c.toNat ≤ 'Z'.toNat := (of_decide_eq_true hupper).2
      exact Nat.le_trans hletter (by decide)
    · have hbounds : (decide (c.val ≥ 'a'.val) && decide (c.val ≤ 'z'.val)) = true := hlower
      exact of_decide_eq_true (Bool.and_eq_true_iff.1 hbounds).2
  exact decide_eq_true (Nat.lt_of_le_of_lt hle (by decide))

theorem isSpace_of_isAlpha {c : Char} (h : c.isAlpha) : isSpace c = false := by
  have hbelow : ∀ n < 0x80, (Char.ofNat n).isAlpha = true → isSpace (Char.ofNat n) = false := by
    decide
  have hlt : c.toNat < 0x80 := of_decide_eq_true (isAscii_of_isAlpha h)
  have hspace := hbelow c.toNat hlt
  rw [Char.ofNat_toNat] at hspace
  exact hspace h

end Text

namespace Mark

/-! ## The last word -/

/-- The character of a mark of code. -/
def char? : Mark → Option Char
  | code c => some c
  | filler _ => none

/-- Do the marks end in the word, and is it a word of its own there? -/
def endsInWord (word : List Char) (marks : List Mark) : Bool :=
  let front := marks.length - word.length
  (marks.drop front).map char? == word.map some &&
    (text (marks.take front)).getLast?.any (!isWordChar ·)

theorem eq_spell_of_map_char? {marks : List Mark} {word : List Char}
    (h : marks.map char? = word.map some) : marks = spell word := by
  induction marks generalizing word with
  | nil =>
    obtain rfl := List.map_eq_nil_iff.1 h.symm
    rfl
  | cons mark rest ih =>
    cases word with
    | nil => cases h
    | cons c more =>
      obtain ⟨hc, hmore⟩ := List.cons.inj h
      cases mark with
      | code b =>
        obtain rfl := Option.some.inj hc
        exact congrArg (code b :: ·) (ih hmore)
      | filler piece => cases hc

theorem map_char?_spell (word : List Char) : (spell word).map char? = word.map some :=
  List.map_map

theorem endsInWord_iff {word : List Char} {marks : List Mark} :
    endsInWord word marks = true ↔ ∃ outer, marks = outer ++ spell word ∧
      (text outer).getLast?.any (!isWordChar ·) = true := by
  rw [endsInWord, Bool.and_eq_true, beq_iff_eq]
  constructor
  · rintro ⟨hword, hapart⟩
    refine ⟨_, ?_, hapart⟩
    rw [← eq_spell_of_map_char? hword, List.take_append_drop]
  · rintro ⟨outer, rfl, hapart⟩
    have hlength : (outer ++ spell word).length - word.length = outer.length := by
      rw [List.length_append, spell, List.length_map, Nat.add_sub_cancel]
    rw [hlength, List.drop_left, List.take_left]
    exact ⟨map_char?_spell word, hapart⟩

/-- No filler ends with a letter. -/
theorem eq_code_of_getLast? {mark : Mark} {c : Char} (h : mark.chars.getLast? = some c)
    (hc : c.isAlpha) : mark = code c := by
  cases mark with
  | code b => exact congrArg code (Option.some.inj h)
  | filler piece =>
    -- the last characters of fillers are white space, a slash, and a line feed
    cases piece with
    | blank b space =>
      obtain rfl : b = c := Option.some.inj h
      rw [isSpace_of_isAlpha hc] at space
      cases space
    | block content complete =>
      have hchars :
          (Filler.block content complete).chars = '/' :: '*' :: content ++ ['*'] ++ ['/'] := by
        simp [Filler.chars]
      have hslash : (Filler.block content complete).chars.getLast? = some '/' := by
        rw [hchars, List.getLast?_concat]
      obtain rfl : '/' = c := Option.some.inj (hslash.symm.trans h)
      cases hc
    | line content oneLine =>
      have hfeed : (Filler.line content oneLine).chars.getLast? = some '\n' := by
        rw [Filler.chars, List.getLast?_concat]
      obtain rfl : '\n' = c := Option.some.inj (hfeed.symm.trans h)
      cases hc

theorem chars_ne_nil (mark : Mark) : mark.chars ≠ [] := by
  cases mark with
  | code c => exact List.cons_ne_nil c []
  | filler piece => cases piece <;> exact List.cons_ne_nil _ _

/-- Letters at the end of a text are code at the end of its marks. -/
theorem exists_of_text_append {marks : List Mark} {outer word : List Char}
    (h : text marks = outer ++ word) (hword : ∀ c ∈ word, c.isAlpha) :
    ∃ init, marks = init ++ spell word ∧ text init = outer := by
  induction word using List.reverseRecOn generalizing marks with
  | nil => exact ⟨marks, (List.append_nil _).symm, h.trans (List.append_nil _)⟩
  | append_singleton more c ih =>
    rw [List.forall_mem_append, List.forall_mem_singleton] at hword
    obtain ⟨hmore, hc⟩ := hword
    rcases List.eq_nil_or_concat marks with rfl | ⟨init, mark, rfl⟩
    · simp at h
    · have hone : text [mark] = mark.chars := List.append_nil _
      rw [List.concat_eq_append, text_append, hone, ← List.append_assoc] at h
      have hlast : mark.chars.getLast? = some c := by
        have hends := congrArg List.getLast? h
        rwa [List.getLast?_append_of_ne_nil _ mark.chars_ne_nil, List.getLast?_concat] at hends
      obtain rfl := eq_code_of_getLast? hlast hc
      obtain ⟨front, rfl, houter⟩ := ih (List.append_cancel_right h) hmore
      refine ⟨front, ?_, houter⟩
      simp only [List.concat_eq_append, List.append_assoc, spell, List.map_append, List.map_cons,
        List.map_nil]

/-- No filler starts with a letter. -/
theorem exists_head (piece : Filler) : ∃ c more, piece.chars = c :: more ∧ c.isAlpha = false := by
  cases piece with
  | blank c space =>
    refine ⟨c, [], rfl, Bool.eq_false_iff.2 fun hc => ?_⟩
    rw [isSpace_of_isAlpha hc] at space
    cases space
  | block content complete => exact ⟨'/', _, rfl, by decide⟩
  | line content oneLine => exact ⟨'/', _, rfl, by decide⟩

theorem notMem_spread (c : Char) (gap : Gap) : .code c ∉ spread gap := by
  intro hmem
  obtain ⟨piece, -, hpiece⟩ := List.mem_map.1 hmem
  cases hpiece

/-- A gap is not made of letters. -/
theorem eq_nil_of_text_spread {gap : Gap} (h : ∀ c ∈ text (spread gap), c.isAlpha) : gap = [] := by
  cases gap with
  | nil => rfl
  | cons piece rest =>
    obtain ⟨c, more, hchars, hc⟩ := exists_head piece
    have hmem : c ∈ text (spread (piece :: rest)) := by
      show c ∈ piece.chars ++ text (spread rest)
      rw [hchars]
      exact List.mem_cons_self
    rw [h c hmem] at hc
    cases hc

end Mark

/-! ## Keywords -/

/-- The word is made of letters, and has its first letter just once. -/
structure Keyword (word : String) (d : Char) (more : List Char) : Prop where
  chars : word.toList = d :: more
  letters : ∀ c ∈ word.toList, c.isAlpha
  once : d ∉ more
  alphabetic : isAlphabetic word = true

namespace Keyword

variable {word : String} {d : Char} {more : List Char}

theorem nonempty (h : Keyword word d more) : word.toList ≠ [] := by
  rw [h.chars]
  exact List.cons_ne_nil d more

theorem isAlpha (h : Keyword word d more) : d.isAlpha :=
  h.letters d (by rw [h.chars]; exact List.mem_cons_self)

theorem pattern_eq (h : Keyword word d more) :
    pattern word = UInt8.ofNat d.toNat :: bytesOf more := by
  rw [Text.pattern_eq, h.chars, bytesOf_cons, bytes_of_isAscii (isAscii_of_isAlpha h.isAlpha),
    List.singleton_append]

end Keyword

/-- The keyword of a variable is one. -/
theorem BindingKind.exists_keyword (kind : BindingKind) :
    ∃ d more, Keyword kind.keyword d more := by
  cases kind with
  | var => exact ⟨'v', ['a', 'r'], rfl, List.all_eq_true.1 rfl, by decide, by decide⟩
  | «let» => exact ⟨'l', ['e', 't'], rfl, List.all_eq_true.1 rfl, by decide, by decide⟩
  | const => exact ⟨'c', ['o', 'n', 's', 't'], rfl, List.all_eq_true.1 rfl, by decide, by decide⟩

namespace Keyword

/-- The first letter of a keyword is neither in gaps nor a comma. -/
theorem notMem_joint {word : String} {d : Char} {more : List Char} (h : Keyword word d more)
    (before after : Gap) : .code d ∉ spread before ++ (spell [','] ++ spread after) := by
  have hcomma : .code d ∉ spell [','] := by
    intro hmem
    obtain rfl : d = ',' := Mark.code.inj (List.mem_singleton.1 hmem)
    cases h.isAlpha
  simp only [List.mem_append, not_or]
  exact ⟨notMem_spread d before, hcomma, notMem_spread d after⟩

end Keyword

/-- Of a text, a word and a single byte end where a comma and a gap do. Unless there is a comma in
the word, the comma is that byte. -/
theorem Text.exists_of_comma {outer front inner before after rest word behind : List Char}
    (h : outer ++ (inner ++ (before ++ ',' :: (after ++ rest))) = front ++ (word ++ behind))
    (hle : width front ≤ width outer + width inner)
    (hwidth : width front + width word + 1 =
      width outer + width inner + width before + 1 + width after) (hword : ',' ∉ word) :
    ∃ middle, outer ++ inner = front ++ middle ∧ word = middle ++ before ∧ after = [] := by
  have hcomma : width (',' :: after) = 1 + width after := rfl
  -- what is behind the word is as long as the comma
  have hwhole : (front ++ word) ++ behind =
      ((outer ++ inner) ++ (before ++ ',' :: after)) ++ rest := by
    simp only [List.append_assoc, List.cons_append, h]
  obtain ⟨last, hlast, -⟩ := Text.exists_append_of_width_le hwhole (by
    simp only [width_append, hcomma]
    omega)
  have hcut : front ++ (word ++ last) = (outer ++ inner) ++ (before ++ ',' :: after) := by
    rw [← List.append_assoc, hlast]
  have hsum := congrArg width hcut
  simp only [width_append, hcomma] at hsum
  obtain ⟨middle, hmiddle, hends⟩ := Text.exists_append_of_width_le hcut (by
    rw [width_append]
    exact hle)
  have hlastWidth : width last = 1 := by omega
  obtain ⟨c, rfl⟩ : ∃ c, last = [c] := by
    cases last with
    | nil => cases hlastWidth
    | cons c others =>
      have hpos := c.utf8Size_pos
      rw [width_cons] at hlastWidth
      cases others with
      | nil => exact ⟨c, rfl⟩
      | cons d others =>
        have := width_pos (List.cons_ne_nil d others)
        omega
  refine ⟨middle, hmiddle, ?_⟩
  rcases List.eq_nil_or_concat after with rfl | ⟨init, d, rfl⟩
  · rw [← List.append_assoc] at hends
    exact ⟨(List.append_inj' hends rfl).1, rfl⟩
  · -- a gap behind the comma would put the comma into the word
    have hword' : word ++ [c] = (middle ++ (before ++ ',' :: init)) ++ [d] := by
      rw [hends]
      simp only [List.concat_eq_append, List.append_assoc, List.cons_append]
    have hinside := (List.append_inj' hword' rfl).1
    refine absurd ?_ hword
    rw [hinside]
    simp

/-! ## Where keywords are found -/

namespace Page

namespace At

variable {page : Page} {offset : Nat} {word : String} {d : Char} {more : List Char}

/-- A word of letters that has no characters of words beside it. -/
theorem wordMatchesAt (hword : Keyword word d more) (h : page.At offset (spell word.toList))
    (hbefore : offset ≠ 0 → (page.source.byteAt (offset - 1)).any isWordByte = false)
    (hbehind : (page.source.byteAt (offset + width word.toList)).any isWordByte = false) :
    page.source.wordMatchesAt (isAlphabetic word) (pattern word) offset = true := by
  have hmatch := h.matchesAt_token hword.nonempty
  rw [← Text.pattern_eq] at hmatch
  have hfront : (offset != 0 && (page.source.byteAt (offset - 1)).any isWordByte) = false := by
    by_cases hzero : offset = 0
    · rw [hzero]
      rfl
    · rw [hbefore hzero, Bool.and_false]
  rw [Source.wordMatchesAt, hmatch, hfront, Text.pattern_eq, length_bytesOf, hbehind]
  simp

/-- A keyword is not found among marks that lack its first letter. -/
theorem wordMatchesAt_idle (hword : Keyword word d more) {idle : List Mark}
    (h : page.At offset idle) (hidle : .code d ∉ idle) {i : Nat} (hlow : offset ≤ i)
    (hhigh : i < offset + size idle) :
    page.source.wordMatchesAt (isAlphabetic word) (pattern word) i = false := by
  rw [Source.wordMatchesAt, hword.pattern_eq,
    h.matchesAt_idle hidle (isAscii_of_isAlpha hword.isAlpha)
    (isSpace_of_isAlpha hword.isAlpha) hlow hhigh, Bool.false_and]

/-- Behind its first letter, a keyword in front of marks without that letter is not found again. -/
theorem wordMatchesAt_behind (hword : Keyword word d more) {idle : List Mark}
    (h : page.At offset (spell word.toList ++ idle)) (hidle : .code d ∉ idle) {i : Nat}
    (hlow : offset < i) (hhigh : i < offset + width word.toList + size idle) :
    page.source.wordMatchesAt (isAlphabetic word) (pattern word) i = false := by
  have hone : size [.code d] = 1 :=
    Written.size_code_cons [] (of_decide_eq_true (isAscii_of_isAlpha hword.isAlpha))
  have hrest : page.At (offset + 1) (spell more ++ idle) := by
    rw [hword.chars] at h
    rw [← hone]
    exact right (a := [.code d]) (b := spell more ++ idle) h
  have hwidth : width word.toList = 1 + width more := by
    rw [hword.chars, width_cons, ← hone]
    rfl
  refine hrest.wordMatchesAt_idle hword ?_ hlow ?_
  · rw [List.mem_append]
    rintro (hmem | hmem)
    · obtain ⟨c, hc, hsame⟩ := List.mem_map.1 hmem
      cases hsame
      exact hword.once hc
    · exact hidle hmem
  · rw [size_append, size_spell]
    omega

/-- A keyword is found in front of marks without its first letter. -/
theorem findLastWord (hword : Keyword word d more) {idle : List Mark}
    (h : page.At offset (spell word.toList ++ idle)) (hidle : .code d ∉ idle)
    (hat : page.source.wordMatchesAt (isAlphabetic word) (pattern word) offset = true)
    {start : Nat} (hstart : start ≤ offset) :
    page.source.findLastWord word start (offset + width word.toList + size idle) = some offset := by
  have hle := h.le_size
  have hpos := width_pos hword.nonempty
  rw [size_append, size_spell] at hle
  refine Search.lastFrom_eq_some_iff.2 ⟨hat, hstart, by omega, fun i hlow hhigh => ?_⟩
  exact h.wordMatchesAt_behind hword hidle hlow (by omega)

/-- A keyword is not found in a window without its first letter. -/
theorem findLastWord_none (hword : Keyword word d more) {idle : List Mark}
    (h : page.At offset idle) (hidle : .code d ∉ idle) :
    page.source.findLastWord word offset (offset + size idle) = none :=
  Search.lastFrom_eq_none_iff.2 fun i hlow hhigh => h.wordMatchesAt_idle hword hidle hlow (by omega)

/-- If a keyword is found a byte in front of what is behind it and a gap, then it is the keyword
itself. -/
theorem eq_of_hasWordAt (hword : Keyword word d more) {idle : List Mark}
    (h : page.At offset (spell word.toList ++ idle)) (hidle : .code d ∉ idle) (hpos : 0 < size idle)
    {i : Nat} (hi : i + width word.toList + 1 = offset + width word.toList + size idle)
    (hfound : page.source.hasWordAt word i = true) : i = offset := by
  rw [Source.hasWordAt, Bool.and_eq_true] at hfound
  by_contra hne
  have hmissed := h.wordMatchesAt_behind hword hidle (i := i) (by omega) (by omega)
  rw [hmissed] at hfound
  cases hfound.2

/-! ### In front of what is behind a comma -/

variable {front rest : List Mark} {before after : Gap}

/-- Where a keyword is found a byte in front of what is behind a comma, the comma is that byte, and
what is in front of the comma ends in the keyword. -/
theorem of_hasWordAt_comma (hword : Keyword word d more)
    (h : page.At offset (front ++ (spread before ++ (spell [','] ++ (spread after ++ rest)))))
    (hfront : width word.toList < size front) {i : Nat}
    (hi : i + width word.toList + 1 =
      offset + size front + size (spread before) + 1 + size (spread after))
    (hfound : page.source.hasWordAt word i = true) :
    before = [] ∧ after = [] ∧ endsInWord word.toList front = true := by
  rw [Source.hasWordAt, Bool.and_eq_true] at hfound
  -- the keyword does not stand between the front and what is behind the comma
  have hearly : i < offset + size front := by
    by_contra hlate
    have hjoint :
        page.At (offset + size front) (spread before ++ (spell [','] ++ spread after)) := by
      have hright := h.right
      rw [← List.append_assoc (spell [',']), ← List.append_assoc (spread before)] at hright
      exact hright.left
    have hcomma : width [','] = 1 := rfl
    have hmissed := hjoint.wordMatchesAt_idle hword (hword.notMem_joint before after) (i := i)
      (by omega) (by
        simp only [size_append, size_spell]
        omega)
    rw [hmissed] at hfound
    cases hfound.2
  obtain ⟨-, outer, behind, htext, rfl, hapart⟩ :=
    (Source.wordMatchesAt_iff hword.nonempty).1 hfound.2
  obtain ⟨houter, -⟩ := hapart hword.alphabetic
  obtain ⟨marks, others, hmarks, rfl⟩ := h
  have hpage : page.source.text.toList = text page.marks := String.toList_ofList
  rw [hpage, hmarks] at htext
  simp only [text_append, text_spell, List.append_assoc, List.singleton_append] at htext
  obtain ⟨middle, hmiddle, hends, hafter⟩ :=
    exists_of_comma htext (Nat.le_of_lt hearly) hi fun hmem =>
      absurd (hword.letters _ hmem) (by decide)
  have hbefore : before = [] := eq_nil_of_text_spread fun c hc =>
    hword.letters c (by rw [hends]; exact List.mem_append_right _ hc)
  subst hbefore
  have hmiddleWord : middle = word.toList := by
    rw [hends]
    exact (List.append_nil _).symm
  subst hmiddleWord
  have hwidth := congrArg width hmiddle
  rw [width_append, width_append] at hwidth
  have hlong : width word.toList < width (text front) := hfront
  obtain ⟨init, rfl, hinit⟩ := Text.exists_append_of_width_le hmiddle (by omega)
  obtain ⟨inner, rfl, hinner⟩ := exists_of_text_append hinit hword.letters
  refine ⟨rfl, eq_nil_of_text_spread (by rw [hafter]; exact List.forall_mem_nil _),
    endsInWord_iff.2 ⟨inner, rfl, ?_⟩⟩
  rw [hinner]
  rcases List.eq_nil_or_concat init with rfl | ⟨others, c, rfl⟩
  · rw [hinit] at hlong
    exact absurd hlong (Nat.lt_irrefl _)
  · rw [List.concat_eq_append, ← List.append_assoc, List.getLast?_concat] at houter
    rw [List.concat_eq_append, List.getLast?_concat]
    simpa using houter

/-- A keyword that a comma alone separates from what is behind it is found there. -/
theorem hasWordAt_comma (hword : Keyword word d more)
    (h : page.At offset (front ++ (spell [','] ++ rest)))
    (hends : endsInWord word.toList front = true) {i : Nat}
    (hi : i + width word.toList + 1 = offset + size front + 1) :
    page.source.hasWordAt word i = true := by
  obtain ⟨outer, rfl, hapart⟩ := endsInWord_iff.1 hends
  rw [List.append_assoc] at h
  have hsize : size (outer ++ spell word.toList) = size outer + width word.toList := by
    rw [size_append, size_spell]
  obtain rfl : i = offset + size outer := by omega
  have hbefore := h.left.byteAt_last hapart
  have hbehind := h.right.right.left.byteAt_first (rfl : (text (spell [','])).head?.any _ = true)
  have hat := h.right.left
  have hpos := width_pos hword.nonempty
  have hle := hat.le_size
  rw [size_spell] at hle hbehind
  rw [Source.hasWordAt, hat.wordMatchesAt hword (fun _ => hbefore.2) hbehind, Bool.and_true,
    decide_eq_true_eq]
  omega

end At

end Page

/-! ## Keywords of declarations -/

theorem keyword_export : Keyword "export" 'e' ['x', 'p', 'o', 'r', 't'] :=
  ⟨rfl, List.all_eq_true.1 rfl, by decide, by decide⟩

end Concretion
