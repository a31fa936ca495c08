import Concretion.Proofs.Written.Bytes

/-!
# Marks

A text of code, white space and comments, as it is written down: a list of marks, each of which is a
character of code or a filler. Where comments are is plain to see there, and the scan finds them: it
neither misses one nor takes anything else for one, whatever the comments contain.

- `Filler`: white space, and complete comments. A `Gap` is any number of them.
- `Mark`: a character of code, or a filler.
- `Mark.isPlain`: a character of code that opens neither comment nor literal, and is no brace.
- `Mark.comments`: where the comments stand.
- `Scan.scan_marks`: the scan finds just these.
-/

namespace Concretion

open Text

/-- White space: the characters with the property White_Space, and the byte order mark. -/
def isSpace (c : Char) : Bool := isBlank c || c == '\uFEFF'

theorem isSpace_blank : isSpace ' ' = true := rfl

/-- What may stand between two tokens. -/
inductive Filler where
  | blank (c : Char) (space : isSpace c)
  /-- A block comment, which its content does not end. -/
  | block (content : List Char) (complete : ¬ ['*', '/'] <:+: content)
  /-- A line comment together with the line feed behind it. -/
  | line (content : List Char) (oneLine : '\n' ∉ content)

/-- Any white space and comments between two tokens. -/
abbrev Gap := List Filler

/-- How a filler is written. -/
def Filler.chars : Filler → List Char
  | blank c _ => [c]
  | block content _ => '/' :: '*' :: content ++ ['*', '/']
  | line content _ => '/' :: '/' :: content ++ ['\n']

/-- A piece of a text. -/
inductive Mark where
  | code (c : Char)
  | filler (piece : Filler)

namespace Mark

/-- How a mark is written. -/
def chars : Mark → List Char
  | code c => [c]
  | filler piece => piece.chars

/-- The characters that comments and literals start with, and braces. -/
def openers : List Char := ['/', '\x27', '\x22', '\x60', '\x7b', '\x7d']

/-- A character of code opens no comment and no literal, and is no brace. -/
def isPlain : Mark → Bool
  | code c => !openers.contains c
  | filler _ => true

/-- White space opens nothing. -/
theorem isPlain_of_isSpace {c : Char} (h : isSpace c) : (code c).isPlain := by
  have hopeners : ∀ d ∈ openers, isSpace d = false := by
    simp [openers, isSpace, isBlank, blankRanges]
  rw [isPlain, Bool.not_eq_true', Bool.eq_false_iff, Ne, List.contains_iff_mem]
  intro hmem
  rw [hopeners c hmem] at h
  cases h

/-- The text of marks. -/
def text (marks : List Mark) : List Char := marks.flatMap chars

/-- The number of bytes that marks take. -/
def size (marks : List Mark) : Nat := width (text marks)

/-- A token as it is written. -/
def spell (chars : List Char) : List Mark := chars.map code

/-- A gap as it is written. -/
def spread (gap : Gap) : List Mark := gap.map filler

/-- The range of a comment that starts at the given offset. The line feed behind a line comment
does not belong to it. -/
def comment? (mark : Mark) (offset : Nat) : Option Trivia :=
  match mark with
  | filler (.block content _) => some ⟨.comment, offset, offset + (width content + 4)⟩
  | filler (.line content _) => some ⟨.comment, offset, offset + (width content + 2)⟩
  | _ => none

/-- The comments among marks that start at the given offset, in order. -/
def comments (offset : Nat) : List Mark → List Trivia
  | [] => []
  | mark :: rest => (mark.comment? offset).toList ++ comments (offset + size [mark]) rest

@[simp] theorem text_nil : text [] = [] := rfl

theorem text_cons (mark : Mark) (rest : List Mark) :
    text (mark :: rest) = mark.chars ++ text rest := rfl

theorem text_append (a b : List Mark) : text (a ++ b) = text a ++ text b :=
  List.flatMap_append

@[simp] theorem size_nil : size [] = 0 := rfl

@[simp] theorem size_append (a b : List Mark) : size (a ++ b) = size a + size b := by
  rw [size, text_append, width_append, size, size]

theorem size_cons (mark : Mark) (rest : List Mark) :
    size (mark :: rest) = size [mark] + size rest :=
  size_append [mark] rest

theorem comments_append (offset : Nat) (a b : List Mark) :
    comments offset (a ++ b) = comments offset a ++ comments (offset + size a) b := by
  induction a generalizing offset with
  | nil => rfl
  | cons mark rest ih =>
    rw [List.cons_append, comments, comments, ih, List.append_assoc, size_cons mark rest,
      Nat.add_assoc]

@[simp] theorem text_spell (chars : List Char) : text (spell chars) = chars := by
  induction chars with
  | nil => rfl
  | cons c rest ih => exact congrArg (c :: ·) ih

@[simp] theorem size_spell (chars : List Char) : size (spell chars) = width chars := by
  rw [size, text_spell]

theorem size_filler (piece : Filler) : size [filler piece] = width piece.chars := by
  rw [size, text_cons, text_nil, List.append_nil, chars]

theorem width_block (content : List Char) (h : ¬ ['*', '/'] <:+: content) :
    width (Filler.block content h).chars = width content + 4 := by
  show 1 + (1 + width (content ++ ['*', '/'])) = _
  rw [width_append]
  show 1 + (1 + (width content + 2)) = _
  omega

theorem width_line (content : List Char) (h : '\n' ∉ content) :
    width (Filler.line content h).chars = width content + 3 := by
  show 1 + (1 + width (content ++ ['\n'])) = _
  rw [width_append]
  show 1 + (1 + (width content + 1)) = _
  omega

/-- A comment lies inside of its mark. -/
theorem comment_bounds {mark : Mark} {offset : Nat} {trivia : Trivia}
    (h : mark.comment? offset = some trivia) :
    trivia.start = offset ∧ trivia.finish ≤ offset + size [mark] := by
  cases mark with
  | code c => cases h
  | filler piece =>
    rw [size_filler]
    cases piece with
    | blank c space => cases h
    | block content complete =>
      cases h
      exact ⟨rfl, by rw [width_block]⟩
    | line content oneLine =>
      cases h
      exact ⟨rfl, by rw [width_line]; exact Nat.le_succ _⟩

/-- Comments lie inside of the marks they are among. -/
theorem comments_bounds {offset : Nat} {marks : List Mark} {trivia : Trivia}
    (h : trivia ∈ comments offset marks) :
    offset ≤ trivia.start ∧ trivia.finish ≤ offset + size marks := by
  induction marks generalizing offset with
  | nil => cases h
  | cons mark rest ih =>
    rw [size_cons]
    rcases List.mem_append.1 h with h | h
    · have := comment_bounds (Option.mem_toList.1 h)
      omega
    · have := ih h
      omega

theorem plain_spread (gap : Gap) : ∀ mark ∈ spread gap, mark.isPlain := by
  intro mark hmark
  obtain ⟨piece, -, rfl⟩ := List.mem_map.1 hmark
  rfl

end Mark

/-! ## Scanning marks -/

namespace Scan

/-- The bytes that comments and literals start with, and braces. -/
def openerBytes : List UInt8 := [0x2F, 0x27, 0x22, 0x60, 0x7B, 0x7D]

/-- The scan goes on behind the given bytes as it would behind any others: what it yields there
does not depend on them, except for the braces that are open before and behind them. -/
def Passes (depths depths' : List Nat) (bytes : List UInt8) (found : Nat → List Trivia) : Prop :=
  ∀ offset before lead rest, ∃ before' lead',
    scanFrom offset before lead depths (bytes ++ rest) =
      found offset ++ scanFrom (offset + bytes.length) before' lead' depths' rest

variable {depths depths' depths'' : List Nat}

theorem passes_nil : Passes depths depths [] fun _ => [] :=
  fun _ before lead _ => ⟨before, lead, rfl⟩

theorem Passes.append {a b : List UInt8} {found found' : Nat → List Trivia}
    (ha : Passes depths depths' a found) (hb : Passes depths' depths'' b found') :
    Passes depths depths'' (a ++ b) fun offset => found offset ++ found' (offset + a.length) := by
  intro offset before lead rest
  obtain ⟨before', lead', hrun⟩ := ha offset before lead (b ++ rest)
  obtain ⟨before'', lead'', hrun'⟩ := hb (offset + a.length) before' lead' rest
  refine ⟨before'', lead'', ?_⟩
  rw [List.append_assoc, hrun, hrun', List.length_append, List.append_assoc, Nat.add_assoc]

theorem passes_byte {b : UInt8} (h : b ∉ openerBytes) :
    Passes depths depths [b] fun _ => [] := by
  intro offset before lead rest
  have hne : ∀ c ∈ openerBytes, (b == c) = false := by
    rintro c hc
    exact beq_eq_false_iff_ne.2 fun heq => h (heq ▸ hc)
  have hstep : step lead depths b rest =
      if isBlankByte b then ⟨0, none, false, depths⟩ else .code depths := by
    simp only [step, hne 0x2F (by decide), hne 0x27 (by decide), hne 0x22 (by decide),
      hne 0x60 (by decide), hne 0x7B (by decide), hne 0x7D (by decide)]
    rfl
  rw [List.singleton_append, scanFrom, hstep]
  cases isBlankByte b with
  | true => exact ⟨b :: before, lead, rfl⟩
  | false => exact ⟨b :: before, b :: before, rfl⟩

theorem passes_bytes {bytes : List UInt8} (h : ∀ b ∈ bytes, b ∉ openerBytes) :
    Passes depths depths bytes fun _ => [] := by
  induction bytes with
  | nil => exact passes_nil
  | cons b rest ih =>
    obtain ⟨hb, hrest⟩ := List.forall_mem_cons.1 h
    exact (passes_byte hb).append (ih hrest)

/-- A character other than those that open a comment or a literal, and other than a brace, is
passed over. -/
theorem passes_char {c : Char} (h : (Mark.code c).isPlain) :
    Passes depths depths (String.utf8EncodeChar c) fun _ => [] := by
  refine passes_bytes fun b hb hopener => ?_
  have hbytes : ∀ b ∈ openerBytes, ∃ d ∈ Mark.openers, isAscii d ∧ UInt8.ofNat d.toNat = b := by
    simp [openerBytes, Mark.openers, isAscii]
  obtain ⟨d, hd, hascii, rfl⟩ := hbytes b hopener
  have heq : c = d := eq_of_mem_utf8EncodeChar hascii hb
  rw [Mark.isPlain, heq, List.contains_iff_mem.2 hd] at h
  cases h

/-! ### Comments -/

/-- In front of the bytes of a slash, a block comment goes on. -/
theorem blockCommentTail_cons {b : UInt8} {rest : List UInt8}
    (h : ¬ (b = 0x2A ∧ rest.head? = some 0x2F)) :
    blockCommentTail (b :: rest) = blockCommentTail rest + 1 := by
  rw [blockCommentTail, if_neg]
  rwa [Bool.and_eq_true, beq_iff_eq, beq_iff_eq]

theorem blockCommentTail_skip {bytes : List UInt8} (h : ∀ b ∈ bytes, b ≠ 0x2A)
    (rest : List UInt8) :
    blockCommentTail (bytes ++ rest) = blockCommentTail rest + bytes.length := by
  induction bytes with
  | nil => rfl
  | cons b more ih =>
    obtain ⟨hb, hmore⟩ := List.forall_mem_cons.1 h
    rw [List.cons_append, blockCommentTail_cons fun hstar => hb hstar.1, ih hmore, List.length_cons,
      Nat.add_assoc]

/-- A block comment goes on to the end of its content, and through the two characters that end
it. -/
theorem blockCommentTail_content {content : List Char} (h : ¬ ['*', '/'] <:+: content)
    (rest : List UInt8) :
    blockCommentTail (bytesOf content ++ 0x2A :: 0x2F :: rest) = width content + 2 := by
  induction content with
  | nil => rfl
  | cons c more ih =>
    have hmore : ¬ ['*', '/'] <:+: more := fun hinfix => h (List.infix_cons hinfix)
    have hwidth : width (c :: more) = c.utf8Size + width more := width_append [c] more
    rw [bytesOf_cons, List.append_assoc]
    by_cases hstar : c = '*'
    · -- a star, which what follows does not turn into the end of the comment
      subst hstar
      have hhead : (bytesOf more ++ 0x2A :: 0x2F :: rest).head? ≠ some 0x2F := by
        cases more with
        | nil => simp
        | cons d others =>
          intro hslash
          have hmem : UInt8.ofNat '/'.toNat ∈ String.utf8EncodeChar d := by
            rw [bytesOf_cons, List.append_assoc, List.head?_append_of_ne_nil _
              String.utf8EncodeChar_ne_nil] at hslash
            exact List.mem_of_mem_head? hslash
          obtain rfl := eq_of_mem_utf8EncodeChar (by decide) hmem
          exact h ⟨[], others, rfl⟩
      show blockCommentTail (0x2A :: (bytesOf more ++ 0x2A :: 0x2F :: rest)) = _
      rw [blockCommentTail_cons fun hend => hhead hend.2, ih hmore, hwidth]
      show width more + 2 + 1 = 1 + width more + 2
      omega
    · have hskip : ∀ b ∈ String.utf8EncodeChar c, b ≠ 0x2A := by
        rintro b hb rfl
        exact hstar (eq_of_mem_utf8EncodeChar (d := '*') (by decide) hb)
      rw [blockCommentTail_skip hskip, ih hmore, String.length_utf8EncodeChar, hwidth]
      omega

/-- The scan passes over a comment of the given length, and over what is written behind it. -/
theorem passes_comment {b : UInt8} {body after : List UInt8} {length : Nat}
    (hlength : body.length + 1 = length)
    (hstep : ∀ lead rest,
      step lead depths b (body ++ (after ++ rest)) = .comment body.length depths)
    (hafter : Passes depths depths after fun _ => []) :
    Passes depths depths (b :: (body ++ after)) fun offset =>
      [⟨.comment, offset, offset + length⟩] := by
  intro offset before lead rest
  obtain ⟨before', lead', hrun⟩ :=
    hafter (offset + 1 + body.length) (body.reverse ++ b :: before) lead rest
  have hread : (Step.comment body.length depths).extra = body.length := rfl
  refine ⟨before', lead', ?_⟩
  rw [List.cons_append, List.append_assoc, scanFrom, hstep, hread, List.take_left, List.drop_left]
  show ⟨.comment, offset, offset + 1 + body.length⟩ ::
    scanFrom (offset + 1 + body.length) (body.reverse ++ b :: before) lead depths (after ++ rest) =
      _
  rw [hrun, List.length_cons, List.length_append, List.singleton_append, List.nil_append, ← hlength]
  congr 2 <;> omega

theorem passes_block {content : List Char} (h : ¬ ['*', '/'] <:+: content) :
    Passes depths depths (bytesOf (Filler.block content h).chars) fun offset =>
      [⟨.comment, offset, offset + (width content + 4)⟩] := by
  have hbytes : bytesOf (Filler.block content h).chars =
      0x2F :: ((0x2A :: bytesOf content ++ [0x2A, 0x2F]) ++ []) := by
    show 0x2F :: 0x2A :: bytesOf (content ++ ['*', '/']) = _
    rw [bytesOf_append, List.append_nil]
    rfl
  have hlength : (0x2A :: bytesOf content ++ [0x2A, 0x2F]).length = width content + 3 := by
    rw [List.length_append, List.length_cons, length_bytesOf]
    rfl
  rw [hbytes]
  refine passes_comment (by rw [hlength]) (fun lead rest => ?_) passes_nil
  have htail := blockCommentTail_content h rest
  show Step.comment (blockCommentTail ((bytesOf content ++ [0x2A, 0x2F]) ++ rest) + 1) depths = _
  rw [hlength, List.append_assoc]
  exact congrArg (fun length => Step.comment (length + 1) depths) htail

/-- A line comment goes on over its content. -/
theorem line_bytes {content : List Char} (h : '\n' ∉ content) :
    ∀ b ∈ 0x2F :: bytesOf content, (b != 0x0A) = true := by
  refine List.forall_mem_cons.2 ⟨rfl, fun b hb => bne_iff_ne.2 ?_⟩
  rintro rfl
  obtain ⟨c, hc, hmem⟩ := List.mem_flatMap.1 hb
  have heq := eq_of_mem_utf8EncodeChar (d := '\n') (by decide) hmem
  exact h (heq ▸ hc)

theorem passes_line {content : List Char} (h : '\n' ∉ content) :
    Passes depths depths (bytesOf (Filler.line content h).chars) fun offset =>
      [⟨.comment, offset, offset + (width content + 2)⟩] := by
  have hbytes : bytesOf (Filler.line content h).chars =
      0x2F :: (0x2F :: bytesOf content ++ [0x0A]) := by
    show 0x2F :: 0x2F :: bytesOf (content ++ ['\n']) = _
    rw [bytesOf_append]
    rfl
  have hlength : (0x2F :: bytesOf content).length = width content + 1 := by
    rw [List.length_cons, length_bytesOf]
  rw [hbytes]
  refine passes_comment (by rw [hlength]) (fun lead rest => ?_) (passes_byte (by decide))
  show Step.comment (lineCommentTail (0x2F :: bytesOf content ++ 0x0A :: rest)) depths = _
  rw [lineCommentTail, List.takeWhile_append_of_pos (line_bytes h),
    List.takeWhile_cons_of_neg (by decide),
    List.append_nil]

/-! ### Whole texts -/

theorem passes_mark {mark : Mark} (h : mark.isPlain) :
    Passes depths depths (bytesOf mark.chars) fun offset => (mark.comment? offset).toList := by
  cases mark with
  | code c =>
    have hbytes : bytesOf (Mark.code c).chars = String.utf8EncodeChar c := List.append_nil _
    rw [hbytes]
    exact passes_char h
  | filler piece =>
    cases piece with
    | blank c space =>
      have hbytes : bytesOf (Mark.filler (.blank c space)).chars = String.utf8EncodeChar c :=
        List.append_nil _
      rw [hbytes]
      exact passes_char (Mark.isPlain_of_isSpace space)
    | block content complete => exact passes_block complete
    | line content oneLine => exact passes_line oneLine

theorem passes_marks {marks : List Mark} (h : ∀ mark ∈ marks, mark.isPlain) :
    Passes depths depths (bytesOf (Mark.text marks)) fun offset => Mark.comments offset marks := by
  induction marks with
  | nil => exact passes_nil
  | cons mark rest ih =>
    obtain ⟨hmark, hrest⟩ := List.forall_mem_cons.1 h
    have hsize : (bytesOf mark.chars).length = Mark.size [mark] := by
      rw [length_bytesOf, Mark.size, Mark.text_cons, Mark.text_nil, List.append_nil]
    have happend := (passes_mark hmark).append (ih hrest)
    rw [hsize, ← bytesOf_append] at happend
    exact happend

/-- The scan finds the comments of a text, and nothing else. -/
theorem scan_marks {marks : List Mark} (h : ∀ mark ∈ marks, mark.isPlain) :
    scan (bytesOf (Mark.text marks)) = Mark.comments 0 marks := by
  obtain ⟨before, lead, hrun⟩ := passes_marks h 0 [] [] []
  rw [List.append_nil, scanFrom, List.append_nil] at hrun
  exact hrun

end Scan

end Concretion
