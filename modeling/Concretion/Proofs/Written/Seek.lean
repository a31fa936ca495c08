import Concretion.Proofs.Spelled
import Concretion.Proofs.Written.Chunks
import Concretion.Proofs.Written.Page

/-!
# Searches among chunks

In a text of chunks, a search for a word or a sign finds a chunk, and not something inside of one,
unless the word is not all letters: such a word may be found inside of another one.

- `Chunk.At`: the chunks that stand at an offset.
- `Word.isFoundIn`, `Chunk.lack`: the words in which a search for another word stops.
- `At.findWord`, `At.findLastWord`, `At.findStar`, `At.findString`: what is looked for is found
  where the chunks have it.
-/

namespace Concretion

open Text Written

/-- Of two ways to begin a text, the longer one begins with the shorter one. -/
theorem Text.exists_append_of_width_le {a b front rest : List Char} (h : front ++ a = rest ++ b)
    (hle : width front ≤ width rest) : ∃ middle, rest = front ++ middle ∧ a = middle ++ b := by
  rcases List.append_eq_append_iff.1 h with ⟨middle, rfl, rfl⟩ | ⟨middle, rfl, rfl⟩
  · exact ⟨middle, rfl, rfl⟩
  · rw [width_append] at hle
    have hempty : middle = [] := by
      by_contra hne
      have := width_pos hne
      omega
    subst hempty
    exact ⟨[], by simp, by simp⟩

/-- Two ways to cut a text in two at the same place are the same. -/
theorem Text.append_inj_of_width {a b front rest : List Char} (h : front ++ a = rest ++ b)
    (hwidth : width front = width rest) : front = rest ∧ a = b := by
  obtain ⟨middle, rfl, rfl⟩ := exists_append_of_width_le h hwidth.le
  have hempty : middle = [] := by
    by_contra hne
    have := width_pos hne
    rw [width_append] at hwidth
    omega
  subst hempty
  exact ⟨(List.append_nil _).symm, rfl⟩

namespace Written

/-- The words in which a search for a word stops. A word of letters is found as a whole word only,
any other one wherever its characters are. -/
def Word.isFoundIn (word other : Word) : Bool :=
  if isAlphabetic word.text then word.chars == other.chars else decide (word.chars <:+: other.chars)

namespace Chunk

/-- A search for the word does not stop among the chunks, in which every word is followed by
something else. -/
def lack (word : Word) : List Chunk → Bool
  | [] => true
  | .word other :: rest =>
    !word.isFoundIn other && (rest.head?.any (!·.isWord) && lack word rest)
  | .sign _ :: rest | .filler _ :: rest | .quoted _ :: rest => lack word rest

/-- The chunks end in a character that no word has. -/
def endsApart (chunks : List Chunk) : Bool := (text chunks).getLast?.any (!isWordChar ·)

/-- The chunks start with a character that no word has. -/
def startsApart (chunks : List Chunk) : Bool := (text chunks).head?.any (!isWordChar ·)

/-- The chunks stand at the offset. -/
def At (page : List Chunk) (offset : Nat) (chunks : List Chunk) : Prop :=
  ∃ before behind, page = before ++ (chunks ++ behind) ∧ size before = offset

variable {page : List Chunk}

theorem text_source : (source page).text.toList = text page := String.toList_ofList

theorem trivia_source : (source page).trivia.toList = trivia 0 page := by
  have hbytes : (source page).bytes.toList = bytesOf (text page) := encoded_ofList _
  rw [Source.trivia_eq, hbytes, Scan.scan_chunks]

theorem lack_append {word : Word} {a b : List Chunk} (ha : lack word a) (hb : lack word b) :
    lack word (a ++ b) := by
  induction a with
  | nil => exact hb
  | cons chunk rest ih =>
    cases chunk with
    | word other =>
      simp only [lack, Bool.and_eq_true] at ha
      simp only [List.cons_append, lack, Bool.and_eq_true]
      refine ⟨ha.1, ?_, ih ha.2.2⟩
      cases rest with
      | nil => cases ha.2.1
      | cons next more => exact ha.2.1
    | sign | filler | quoted => exact ih ha

/-- What is no word starts with a character that no word has. -/
theorem exists_head {chunk : Chunk} (h : chunk.isWord = false) :
    ∃ c more, chunk.chars = c :: more ∧ ∀ word : Word, c ∉ word.chars := by
  have hsigns :
      ['/', ',', ';', '*', '\x7b', '\x7d', '\x27', '\x22'].all (!isWordChar ·) = true := rfl
  have hother : ∀ c ∈ ['/', ',', ';', '*', '\x7b', '\x7d', '\x27', '\x22'],
      ∀ word : Word, c ∉ word.chars := by
    intro c hc word hmem
    have hnone := List.all_eq_true.1 hsigns c hc
    rw [word.word c hmem] at hnone
    cases hnone
  cases chunk with
  | word w => cases h
  | sign s => exact ⟨s.char, [], rfl, hother _ (by cases s <;> decide)⟩
  | filler piece =>
    cases piece with
    | blank c space =>
      refine ⟨c, [], rfl, fun word hmem => ?_⟩
      rw [word.visible c hmem] at space
      cases space
    | block content complete => exact ⟨'/', _, rfl, hother _ (by decide)⟩
    | line content oneLine => exact ⟨'/', _, rfl, hother _ (by decide)⟩
  | quoted q => exact ⟨q.quote, _, rfl, hother _ (by rcases q.isQuote with h | h <;> simp [h])⟩

namespace At

variable {offset : Nat} {a b chunks : List Chunk}

theorem left (h : At page offset (a ++ b)) : At page offset a := by
  obtain ⟨before, behind, hpage, hsize⟩ := h
  exact ⟨before, b ++ behind, by rw [hpage, List.append_assoc], hsize⟩

theorem right (h : At page offset (a ++ b)) : At page (offset + size a) b := by
  obtain ⟨before, behind, hpage, hsize⟩ := h
  refine ⟨before ++ a, behind, by rw [hpage]; simp only [List.append_assoc], ?_⟩
  rw [size_append, hsize]

theorem has (h : At page offset chunks) : (source page).Has offset (text chunks) := by
  obtain ⟨before, behind, rfl, rfl⟩ := h
  exact ⟨text before, text behind, by rw [text_source, text_append, text_append], rfl⟩

theorem le_size (h : At page offset chunks) : offset + size chunks ≤ (source page).size :=
  h.has.le_size

/-! ## Comments and strings -/

/-- Inside of a chunk, only the comment or the string that it is is skipped. -/
theorem inTrivia_iff {chunk : Chunk} (h : At page offset [chunk]) {i : Nat} (hlow : offset ≤ i)
    (hhigh : i < offset + size [chunk]) :
    (source page).inTrivia i = true ↔ ∃ found, chunk.trivia? offset = some found ∧
      i < found.finish := by
  obtain ⟨before, behind, hpage, hsize⟩ := h
  have hmem : ∀ found, found ∈ (source page).trivia ↔ found ∈ trivia 0 before ∨
      chunk.trivia? offset = some found ∨ found ∈ trivia (offset + size [chunk]) behind := by
    intro found
    rw [← Array.mem_toList_iff, trivia_source, hpage, trivia_append, trivia_append,
      List.mem_append, List.mem_append, hsize, trivia, trivia, List.append_nil,
      Option.mem_toList, Nat.zero_add]
  have hmode : (source page).inTrivia i = ((source page).triviaAt i).isSome := rfl
  rw [hmode, Option.isSome_iff_exists]
  constructor
  · rintro ⟨found, hfound⟩
    obtain ⟨hin, hstart, hfinish⟩ := (source page).triviaAt_eq_some_iff.1 hfound
    -- Trivia in front ends before this chunk, and trivia behind begins after it.
    rcases (hmem found).1 hin with hin | hin | hin
    · have := bounds_of_mem_trivia hin
      omega
    · exact ⟨found, hin, hfinish⟩
    · have := bounds_of_mem_trivia hin
      omega
  · rintro ⟨found, hfound, hfinish⟩
    obtain ⟨hstart, -⟩ := trivia_bounds hfound
    exact ⟨found, (source page).triviaAt_eq_some_iff.2
      ⟨(hmem found).2 (.inr (.inl hfound)), by omega, hfinish⟩⟩

/-- No search skips the start of a word or of a sign. -/
theorem inTrivia_code {chunk : Chunk} (h : At page offset [chunk])
    (hcode : chunk.trivia? offset = none) (hne : chunk.chars ≠ []) :
    (source page).inTrivia offset = false := by
  refine Bool.eq_false_iff.2 fun htrivia => ?_
  have hpos : 0 < size [chunk] := by
    rw [size, text_cons, text_nil, List.append_nil]
    exact width_pos hne
  obtain ⟨found, hfound, -⟩ := (h.inTrivia_iff (Nat.le_refl _) (by omega)).1 htrivia
  rw [hcode] at hfound
  cases hfound

/-! ## What a search can find -/

/-- The chunk in which an offset lies. -/
theorem exists_chunk (h : At page offset chunks) {i : Nat} (hlow : offset ≤ i)
    (hhigh : i < offset + size chunks) :
    ∃ front chunk rest, chunks = front ++ chunk :: rest ∧ offset + size front ≤ i ∧
      i < offset + size front + size [chunk] := by
  induction chunks generalizing offset with
  | nil =>
    rw [size_nil] at hhigh
    omega
  | cons chunk rest ih =>
    rw [size_cons] at hhigh
    by_cases hfirst : i < offset + size [chunk]
    · exact ⟨[], chunk, rest, rfl, hlow, hfirst⟩
    · have hrest : At page (offset + size [chunk]) rest := right (a := [chunk]) h
      obtain ⟨front, other, more, rfl, hstart, hfinish⟩ := ih hrest (by omega) (by omega)
      refine ⟨chunk :: front, other, more, rfl, ?_⟩
      rw [size_cons]
      omega

/-- Where no search skips it, a character other than white space belongs to a word or is a sign. -/
theorem exists_code {chunk : Chunk} (h : At page offset [chunk]) {i : Nat} (hlow : offset ≤ i)
    (hhigh : i < offset + size [chunk]) (htrivia : (source page).inTrivia i = false)
    {before behind : List Char} {c : Char} (htext : text page = before ++ c :: behind)
    (hwidth : width before = i) (hspace : isSpace c = false) :
    ∃ front rest, chunk.chars = front ++ c :: rest ∧ i = offset + width front ∧
      ((∃ word, chunk = .word word) ∨ ∃ sign, chunk = .sign sign ∧ sign.char = c) := by
  have hskip : ∀ found, chunk.trivia? offset = some found → found.finish ≤ i := by
    intro found hfound
    refine Nat.not_lt.1 fun hlt => ?_
    rw [(h.inTrivia_iff hlow hhigh).2 ⟨found, hfound, hlt⟩] at htrivia
    cases htrivia
  obtain ⟨outer, after, rfl, rfl⟩ := h
  rw [text_append, text_append, text_cons, text_nil, List.append_nil] at htext
  obtain ⟨front, rfl, hfront⟩ := exists_append_of_width_le htext (by rw [hwidth]; exact hlow)
  have hshort : width front < width chunk.chars := by
    have hsize : size [chunk] = width chunk.chars := by
      rw [size, text_cons, text_nil, List.append_nil]
    have houter : size outer = width (text outer) := rfl
    rw [width_append] at hwidth
    omega
  -- the chunk goes on behind `front`, and so does what stands there
  obtain ⟨rest, hchars, hrest⟩ := exists_append_of_width_le hfront.symm hshort.le
  have hne : rest ≠ [] := by
    rintro rfl
    rw [hchars, List.append_nil] at hshort
    exact absurd hshort (Nat.lt_irrefl _)
  obtain ⟨d, more, rfl⟩ := List.exists_cons_of_ne_nil hne
  obtain ⟨rfl, hbehind⟩ := List.cons.inj hrest
  have hplace : i = size outer + width front := by
    rw [← hwidth, width_append]
    rfl
  refine ⟨front, more, hchars, hplace, ?_⟩
  cases chunk with
  | word w => exact .inl ⟨w, rfl⟩
  | sign s =>
    rcases List.append_eq_singleton_iff.1 hchars.symm with ⟨-, hc⟩ | ⟨-, hc⟩
    · exact .inr ⟨s, rfl, (List.cons.inj hc).1.symm⟩
    · cases hc
  | quoted q =>
    have hend := hskip _ rfl
    rw [size_quoted] at hhigh
    simp only at hend
    omega
  | filler piece =>
    have hsize : size [filler piece] = width piece.chars := by
      rw [size, text_cons, text_nil, List.append_nil, chars]
    cases piece with
    | blank d space =>
      rcases List.append_eq_singleton_iff.1 hchars.symm with ⟨-, hd⟩ | ⟨-, hd⟩
      · obtain rfl := (List.cons.inj hd).1
        rw [hspace] at space
        cases space
      · cases hd
    | block content complete =>
      have hend := hskip _ rfl
      rw [hsize, Mark.width_block] at hhigh
      simp only at hend
      omega
    | line content oneLine =>
      -- behind the comment there is only the line feed
      have hend := hskip _ rfl
      have hwhole :
          width (Filler.line content oneLine).chars = width front + (c.utf8Size + width more) := by
        rw [← width_cons, ← width_append, ← hchars, chars]
      rw [Mark.width_line] at hwhole
      simp only at hend
      have hpos := c.utf8Size_pos
      have hempty : more = [] := by
        by_contra hmore
        have := width_pos hmore
        omega
      subst hempty
      have hlast : ('/' :: '/' :: content ++ ['\n']).getLast? = (front ++ [c]).getLast? :=
        congrArg List.getLast? hchars
      rw [List.getLast?_concat, List.getLast?_concat] at hlast
      obtain rfl := Option.some.inj hlast
      cases hspace

/-! ## Words -/

/-- A search for a word stops inside of words only. One for a word of letters stops at the whole
word. -/
theorem exists_word {word : Word} {chunk : Chunk} {rest : List Chunk}
    (h : At page offset (chunk :: rest))
    (hrest : chunk.isWord = true → rest.head?.any (!·.isWord) = true) {i : Nat}
    (hlow : offset ≤ i) (hhigh : i < offset + size [chunk])
    (hmatch : (source page).wordMatchesAt (isAlphabetic word.text) (pattern word.text) i = true) :
    ∃ other front back, chunk = .word other ∧ other.chars = front ++ (word.chars ++ back) ∧
      i = offset + width front ∧ (isAlphabetic word.text = true → front = [] ∧ back = []) := by
  have hword : word.text.toList = word.chars := String.toList_ofList
  obtain ⟨htrivia, before, behind, htext, hwidth, hapart⟩ :=
    (Source.wordMatchesAt_iff (by rw [hword]; exact word.nonempty)).1 hmatch
  rw [hword, text_source] at htext
  obtain ⟨c, more, hc⟩ := List.exists_cons_of_ne_nil word.nonempty
  have hmem : c ∈ word.chars := hc ▸ List.mem_cons_self
  have hstart : text page = before ++ c :: (more ++ behind) := by
    rw [htext, hc]
    rfl
  obtain ⟨front, tail, hchars, hplace, hkind⟩ := exists_code (left (a := [chunk]) h) hlow hhigh
    htrivia hstart hwidth (word.visible c hmem)
  rcases hkind with ⟨other, rfl⟩ | ⟨s, rfl, hsign⟩
  · have hother : other.chars = front ++ c :: tail := hchars
    have hwords : ∀ d ∈ other.chars, isWordChar d = true := other.word
    obtain ⟨outer, after, rfl, rfl⟩ := h
    rw [List.cons_append, text_append, text_cons, chars, hother] at htext
    have hcut : (text outer ++ front) ++ (c :: tail ++ text (rest ++ after)) =
        before ++ (word.chars ++ behind) := by
      rw [← htext]
      simp only [List.append_assoc]
    obtain ⟨hfront, hbehind⟩ := append_inj_of_width hcut (by
      rw [hwidth, hplace, width_append]
      rfl)
    have hback :
        ∃ back, c :: tail = word.chars ++ back ∧ behind = back ++ text (rest ++ after) := by
      rcases Nat.le_total (width word.chars) (width (c :: tail)) with hle | hle
      · exact exists_append_of_width_le hbehind.symm hle
      · -- the word would go on behind the other one
        obtain ⟨extra, hextra, hnext⟩ := exists_append_of_width_le hbehind hle
        cases extra with
        | nil => exact ⟨[], by rw [hextra]; simp, hnext.symm⟩
        | cons d more =>
          obtain ⟨next, hhead, hnoword⟩ := (Option.any_eq_true _ _).1 (hrest rfl)
          obtain ⟨others, rfl⟩ := List.head?_eq_some_iff.1 hhead
          obtain ⟨e, chars, hnextChars, hvisible⟩ := exists_head (by simpa using hnoword)
          rw [List.cons_append, text_cons, hnextChars] at hnext
          obtain ⟨rfl, -⟩ := List.cons.inj hnext
          exact absurd (by rw [hextra]; simp) (hvisible word)
    obtain ⟨back, htail, rfl⟩ := hback
    rw [htail] at hother
    refine ⟨other, front, back, rfl, hother, hplace, fun halphabetic => ?_⟩
    obtain ⟨hlast, hfirst⟩ := hapart halphabetic
    rw [hother] at hwords
    constructor
    · rcases List.eq_nil_or_concat front with rfl | ⟨init, d, rfl⟩
      · rfl
      · rw [← hfront, List.concat_eq_append, ← List.append_assoc, List.getLast?_concat,
          Option.any_some, hwords d (by simp)] at hlast
        cases hlast
    · cases back with
      | nil => rfl
      | cons d more =>
        rw [List.cons_append, List.head?_cons, Option.any_some, hwords d (by simp)] at hfirst
        cases hfirst
  · -- a sign is no character of a word
    have hsigns : isWordChar s.char = false := by cases s <;> decide
    rw [hsign, word.word c hmem] at hsigns
    cases hsigns

/-- A search for a word does not stop among chunks that lack it. -/
theorem wordMatchesAt_lack {word : Word} (h : At page offset chunks) (hlack : lack word chunks)
    {i : Nat} (hlow : offset ≤ i) (hhigh : i < offset + size chunks) :
    (source page).wordMatchesAt (isAlphabetic word.text) (pattern word.text) i = false := by
  induction chunks generalizing offset with
  | nil =>
    rw [size_nil] at hhigh
    omega
  | cons chunk rest ih =>
    rw [size_cons] at hhigh
    have hrest : lack word rest = true ∧ (chunk.isWord = true → rest.head?.any (!·.isWord) = true) ∧
        ∀ other, chunk = .word other → word.isFoundIn other = false := by
      cases chunk with
      | word other =>
        simp only [lack, Bool.and_eq_true, Bool.not_eq_true'] at hlack
        exact ⟨hlack.2.2, fun _ => hlack.2.1, fun _ heq => by cases heq; exact hlack.1⟩
      | sign | filler | quoted => exact ⟨hlack, fun h => (by cases h), fun _ heq => by cases heq⟩
    obtain ⟨hlackRest, hnext, hother⟩ := hrest
    -- A match starts either inside of the first chunk or behind it.
    by_cases hfirst : i < offset + size [chunk]
    · refine Bool.eq_false_iff.2 fun hmatch => ?_
      obtain ⟨other, front, back, rfl, hchars, -, hwhole⟩ := exists_word h hnext hlow hfirst hmatch
      have hfound := hother other rfl
      rw [Word.isFoundIn] at hfound
      split at hfound
      · next halphabetic =>
        obtain ⟨rfl, rfl⟩ := hwhole halphabetic
        rw [hchars, List.nil_append, List.append_nil, beq_self_eq_true] at hfound
        cases hfound
      · rw [decide_eq_false_iff_not] at hfound
        exact hfound ⟨front, back, by rw [hchars, List.append_assoc]⟩
    · exact ih (right (a := [chunk]) h) hlackRest (by omega) (by omega)

/-- A word is found where it stands, if it is kept apart from what is beside it. Only a word of
letters has to be. -/
theorem wordMatchesAt_word {word : Word} {before behind : List Chunk}
    (hpage : page = before ++ .word word :: behind)
    (hapart : isAlphabetic word.text = true →
      (text before).getLast?.any isWordChar = false ∧ (text behind).head?.any isWordChar = false) :
    (source page).wordMatchesAt (isAlphabetic word.text) (pattern word.text) (size before) =
      true := by
  have hword : word.text.toList = word.chars := String.toList_ofList
  have hat : At page (size before) [.word word] := ⟨before, behind, hpage, rfl⟩
  refine (Source.wordMatchesAt_iff (by rw [hword]; exact word.nonempty)).2
    ⟨hat.inTrivia_code rfl word.nonempty, text before, text behind, ?_, rfl, hapart⟩
  rw [text_source, hpage, text_append, text_cons, hword]
  rfl

/-- The first place where a word is found is behind chunks that lack it. -/
theorem findWord {word : Word} {front rest : List Chunk}
    (h : At page offset (front ++ .word word :: rest)) (hlack : lack word front)
    (hapart : isAlphabetic word.text = true → endsApart front ∧ startsApart rest) {finish : Nat}
    (hfinish : offset + size front < finish) :
    (source page).findWord word.text offset finish = some (offset + size front) := by
  have hsize : offset + size front < (source page).size := by
    have hle := h.le_size
    have hpos := width_pos word.nonempty
    rw [size_append, size_cons, size_word] at hle
    omega
  have hat : (source page).wordMatchesAt (isAlphabetic word.text) (pattern word.text)
      (offset + size front) = true := by
    obtain ⟨before, behind, hpage, rfl⟩ := h
    rw [← size_append]
    have hcut : page = (before ++ front) ++ .word word :: (rest ++ behind) := by
      rw [hpage]
      simp only [List.append_assoc, List.cons_append]
    refine wordMatchesAt_word hcut fun halphabetic => ?_
    obtain ⟨hends, hstarts⟩ := hapart halphabetic
    obtain ⟨c, hc, hlast⟩ := (Option.any_eq_true _ _).1 hends
    obtain ⟨d, hd, hfirst⟩ := (Option.any_eq_true _ _).1 hstarts
    rw [Bool.not_eq_true'] at hlast hfirst
    constructor
    · rw [text_append, List.getLast?_append, hc]
      exact hlast
    · rw [text_append, List.head?_append, hd]
      exact hfirst
  -- In front of the word there is none, so the first match is at the word.
  refine Search.firstFrom_eq_some_iff.2
    ⟨hat, Nat.le_add_right _ _, by omega, fun i hlow hhigh => ?_⟩
  exact h.left.wordMatchesAt_lack hlack hlow hhigh

/-- The last place where a word of letters is found is in front of chunks that lack it. -/
theorem findLastWord {word : Word} {front rest : List Chunk}
    (h : At page offset (front ++ .word word :: rest)) (halphabetic : isAlphabetic word.text = true)
    (hat : (source page).wordMatchesAt (isAlphabetic word.text) (pattern word.text)
      (offset + size front) = true)
    (hnext : rest.head?.any (!·.isWord) = true) (hlack : lack word rest) {finish : Nat}
    (hlow : offset + size front < finish)
    (hhigh : finish ≤ offset + size front + width word.chars + size rest) :
    (source page).findLastWord word.text offset finish = some (offset + size front) := by
  have hsize := h.le_size
  rw [size_append, size_cons, size_word] at hsize
  refine Search.lastFrom_eq_some_iff.2
    ⟨hat, Nat.le_add_right _ _, by omega, fun i hbehind hbound => ?_⟩
  by_cases hinside : i < offset + size front + width word.chars
  · refine Bool.eq_false_iff.2 fun hmatch => ?_
    obtain ⟨other, start, back, -, -, hplace, hwhole⟩ := exists_word h.right (fun _ => hnext)
      hbehind.le (by rwa [size_word]) hmatch
    obtain ⟨rfl, -⟩ := hwhole halphabetic
    rw [width_nil] at hplace
    omega
  · have hrest : At page (offset + size front + size [.word word]) rest :=
      right (a := [.word word]) h.right
    rw [size_word] at hrest
    exact hrest.wordMatchesAt_lack hlack (by omega) (by omega)

theorem findLastWord_none {word : Word} (h : At page offset chunks) (hlack : lack word chunks)
    {finish : Nat} (hfinish : finish ≤ offset + size chunks) :
    (source page).findLastWord word.text offset finish = none :=
  Search.lastFrom_eq_none_iff.2 fun _ hlow hhigh => h.wordMatchesAt_lack hlack hlow (by omega)

/-! ## Signs and strings -/

/-- The first star that is found is behind chunks without one. -/
theorem findStar {front rest : List Chunk} (h : At page offset (front ++ .sign .star :: rest))
    (hfront : ∀ s, .sign s ∈ front → s ≠ .star) {finish : Nat}
    (hfinish : offset + size front < finish) :
    (source page).find "*" offset finish = some (offset + size front) := by
  have hpattern : pattern "*" = bytesOf ['*'] := pattern_eq "*"
  have hsize : offset + size front < (source page).size := by
    have hle := h.le_size
    rw [size_append, size_cons, size_sign] at hle
    omega
  have hsign : At page (offset + size front) [.sign .star] := left (b := rest) h.right
  refine Search.firstFrom_eq_some_iff.2
    ⟨?_, Nat.le_add_right _ _, by omega, fun i hlow hhigh => ?_⟩
  · rw [Source.matchesAt, hsign.inTrivia_code rfl (List.cons_ne_nil _ _), Bool.not_false,
      Bool.and_true, hpattern, Source.startsAt_iff_has (List.cons_ne_nil _ _)]
    exact hsign.has
  -- A match in front would be code, of a word or of another sign, and neither has a star.
  · refine Bool.eq_false_iff.2 fun hmatch => ?_
    rw [Source.matchesAt, Bool.and_eq_true, Bool.not_eq_true', hpattern,
      Source.startsAt_iff_has (List.cons_ne_nil _ _)] at hmatch
    obtain ⟨⟨before, behind, htext, hwidth⟩, htrivia⟩ := hmatch
    rw [text_source] at htext
    obtain ⟨init, chunk, more, rfl, hstart, hend⟩ := h.left.exists_chunk hlow hhigh
    have hchunk : At page (offset + size init) [chunk] :=
      left (b := more) (right h.left)
    obtain ⟨start, tail, hchars, -, ⟨word, rfl⟩ | ⟨s, rfl, hs⟩⟩ :=
      hchunk.exists_code hstart hend htrivia htext hwidth (by decide)
    · have hword := word.word '*' (by
        show '*' ∈ (Chunk.word word).chars
        rw [hchars]
        simp)
      cases hword
    · exact hfront s (by simp) (by cases s <;> first | rfl | cases hs)

/-- A string is told by its content. -/
theorem isQuoted_iff {quoted : Quoted} (h : At page offset [.quoted quoted]) {content : List Char} :
    (source page).isQuoted (bytesOf content)
      ⟨.literal, offset, offset + (width quoted.content + 2)⟩ =
      true ↔ quoted.content = content := by
  obtain ⟨b, hb, -, hquote⟩ := exists_byte_of_quote quoted.isQuote
  have hwritten :
      ((source page).bytes.extract offset (offset + (width quoted.content + 2))).toList =
      b :: (bytesOf quoted.content ++ [b]) := by
    have hextract := h.has.extract
    rw [text_cons, text_nil, List.append_nil, chars, width_quoted] at hextract
    rw [hextract, Quoted.chars, bytesOf_cons, bytesOf_append, bytesOf_cons, bytesOf_nil, hquote]
    rfl
  rw [Source.isQuoted, hwritten, beq_self_eq_true, Bool.true_and, List.any_eq_true]
  constructor
  · rintro ⟨quote, -, hsame⟩
    obtain ⟨rfl, hrest⟩ := List.cons.inj (eq_of_beq hsame)
    exact bytesOf_inj.1 (List.append_cancel_right hrest)
  · rintro rfl
    exact ⟨b, hb, beq_self_eq_true _⟩

/-- The chunk that a comment or a string is. -/
theorem exists_of_mem_trivia {found : Trivia} (h : found ∈ trivia offset chunks) :
    ∃ front chunk rest, chunks = front ++ chunk :: rest ∧
      chunk.trivia? (offset + size front) = some found := by
  induction chunks generalizing offset with
  | nil => cases h
  | cons chunk rest ih =>
    rcases List.mem_append.1 h with h | h
    · exact ⟨[], chunk, rest, rfl, Option.mem_toList.1 h⟩
    · obtain ⟨front, other, more, rfl, hfound⟩ := ih h
      refine ⟨chunk :: front, other, more, rfl, ?_⟩
      rwa [size_cons, ← Nat.add_assoc]

/-- The first string of the given content that is found is behind chunks without one. -/
theorem findString {quoted : Quoted} {front rest : List Chunk}
    (h : At page offset (front ++ .quoted quoted :: rest))
    (hfront : ∀ other, .quoted other ∈ front → other.content ≠ quoted.content) :
    (source page).findString quoted.text offset (source page).size =
      some ⟨offset + size front, offset + size front + (width quoted.content + 2)⟩ := by
  have hle := h.le_size
  have hquoted : At page (offset + size front) [.quoted quoted] := left (b := rest) h.right
  have hfronts := h.left
  obtain ⟨before, behind, hpage, hsize⟩ := h
  -- The trivia are those of the chunks in front, then the string, so that the search passes two
  -- lists.
  have htrivia : (source page).trivia.toList = trivia 0 before ++ (trivia offset front ++
      (⟨.literal, offset + size front, offset + size front + (width quoted.content + 2)⟩ ::
        trivia (offset + size front + size [.quoted quoted]) (rest ++ behind))) := by
    rw [trivia_source, hpage, List.append_assoc, trivia_append, trivia_append, List.cons_append,
      trivia, Nat.zero_add, hsize]
    rfl
  have hpattern : pattern quoted.text = bytesOf quoted.content := by
    rw [pattern_eq, Quoted.text, String.toList_ofList]
  rw [size_append, size_cons, size_quoted] at hle
  rw [Source.findString, ← Array.find?_toList, htrivia, hpattern, List.find?_append,
    List.find?_eq_none.2, Option.none_or, List.find?_append, List.find?_eq_none.2, Option.none_or,
    List.find?_cons_of_pos]
  · rfl
  · simp only [Bool.and_eq_true, decide_eq_true_eq, hquoted.isQuoted_iff, and_true]
    omega
  · intro found hfound hmatch
    rw [Bool.and_eq_true] at hmatch
    obtain ⟨init, chunk, more, rfl, hkind⟩ := exists_of_mem_trivia hfound
    cases chunk with
    | word | sign => cases hkind
    | filler piece =>
      have hcomment : found.kind = .comment := by
        cases piece <;> cases hkind <;> rfl
      rw [Source.isQuoted, hcomment] at hmatch
      cases hmatch.2
    | quoted other =>
      cases hkind
      have hother : At page (offset + size init) [.quoted other] := left (b := more) (right hfronts)
      exact hfront other (by simp) (hother.isQuoted_iff.1 hmatch.2)
  · intro found hfound hmatch
    simp only [Bool.and_eq_true, decide_eq_true_eq] at hmatch
    have hbounds := bounds_of_mem_trivia hfound
    omega

end At

end Chunk

end Written

end Concretion
