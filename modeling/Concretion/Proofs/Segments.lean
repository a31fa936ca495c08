import Concretion.Proofs.Written.Chunks
import Mathlib.Data.List.TakeWhile

/-!
# Segments

A text as a sequence of code, braces, comments, strings and templates. The text of a template is cut
into stretches by substitutions, which hold code in turn, and so templates again, to any depth. The
scan keeps no more of that nesting than a stack of numbers, one for each open substitution; it
recovers the segments all the same.

- `Letter`: a character of a literal, as it is or behind a backslash.
- `StringLiteral`, `Stretch`: a string, and text between two substitutions of a template.
- `Segment`, `TemplateRest`: a piece of code with all that is nested in it.
- `Segmentation`: a whole text, which may have braces without a counterpart.
- `Segmentation.trivia`: where the comments and the literals of a text stand.
- `scan_recovers_segmentation`: the scan finds just these.
-/

namespace Concretion

open Text

namespace Written

/-! ## How a text is made up -/

/-- A character inside of a literal. -/
inductive Letter where
  | plain (c : Char)
  /-- A backslash takes the character behind it with it, whatever it is. -/
  | escaped (c : Char)
  deriving DecidableEq

/-- How a character inside of a literal is written. -/
def Letter.chars : Letter → List Char
  | plain c => [c]
  | escaped c => ['\x5c', c]

/-- How the content of a literal is written. -/
def Letter.text (letters : List Letter) : List Char := letters.flatMap Letter.chars

/-- A string in either kind of quotes. -/
structure StringLiteral where
  quote : Char
  isQuote : quote = '\x27' ∨ quote = '\x22'
  content : List Letter
  /-- The string neither ends inside of its content nor is it broken off at a line feed there. -/
  complete : ∀ c, .plain c ∈ content → c ∉ [quote, '\x5c', '\n']

/-- How a string is written. -/
def StringLiteral.chars (literal : StringLiteral) : List Char :=
  literal.quote :: (Letter.text literal.content ++ [literal.quote])

/-- Text of a template up to a substitution or up to the end of the template. -/
structure Stretch where
  content : List Letter
  /-- The template does not end inside of the stretch. -/
  complete : ∀ c, .plain c ∈ content → c ∉ ['\x60', '\x5c']
  /-- No substitution begins inside of the stretch. -/
  unbroken : ¬ [Letter.plain '$', .plain '\x7b'] <:+: content

/-- How a stretch is written. -/
def Stretch.chars (stretch : Stretch) : List Char := Letter.text stretch.content

mutual

/-- A piece of code. -/
inductive Segment where
  | code (c : Char) (isCode : c ∉ Mark.openers)
  /-- White space, a block comment, or a line comment with the line feed behind it. -/
  | filler (piece : Filler)
  /-- Code in braces. -/
  | braces (inner : List Segment)
  | string (literal : StringLiteral)
  /-- A template, which begins with the given stretch. -/
  | template (stretch : Stretch) (rest : TemplateRest)

/-- How a template goes on behind a stretch. -/
inductive TemplateRest where
  | closed
  /-- Code in a substitution, and the stretch behind it. -/
  | substitution (inner : List Segment) (stretch : Stretch) (rest : TemplateRest)

end

mutual

/-- How a piece of code is written. -/
def Segment.chars : Segment → List Char
  | .code c _ => [c]
  | .filler piece => piece.chars
  | .braces inner => '\x7b' :: (Segment.text inner ++ ['\x7d'])
  | .string literal => literal.chars
  | .template stretch rest => '\x60' :: (stretch.chars ++ rest.chars)

/-- How code is written. -/
def Segment.text : List Segment → List Char
  | [] => []
  | segment :: rest => segment.chars ++ Segment.text rest

/-- How the rest of a template is written. -/
def TemplateRest.chars : TemplateRest → List Char
  | .closed => ['\x60']
  | .substitution inner stretch rest =>
    '$' :: '\x7b' :: (Segment.text inner ++ '\x7d' :: (stretch.chars ++ rest.chars))

end

mutual

/-- The comments and literals of a piece of code that starts at the given offset, in order. -/
def Segment.trivia (offset : Nat) : Segment → List Trivia
  | .code _ _ => []
  | .filler piece => ((Mark.filler piece).comment? offset).toList
  | .braces inner => Segment.triviaOf (offset + 1) inner
  | .string literal => [⟨.literal, offset, offset + width literal.chars⟩]
  | .template stretch rest => rest.trivia offset (offset + 1 + width stretch.chars)

/-- The comments and literals of code that starts at the given offset, in order. -/
def Segment.triviaOf (offset : Nat) : List Segment → List Trivia
  | [] => []
  | segment :: rest =>
    segment.trivia offset ++ Segment.triviaOf (offset + width segment.chars) rest

/-- The stretch that goes from `start` through what is at `offset`, which is a closing backtick or
the opening of a substitution, and what comes after that. -/
def TemplateRest.trivia (start offset : Nat) : TemplateRest → List Trivia
  | .closed => [⟨.literal, start, offset + 1⟩]
  | .substitution inner stretch rest =>
    ⟨.literal, start, offset + 2⟩ ::
      (Segment.triviaOf (offset + 2) inner ++
        rest.trivia (offset + 2 + width (Segment.text inner))
          (offset + 2 + width (Segment.text inner) + 1 + width stretch.chars))

end

/-- A piece of a text outside of all templates: braces need not match there. -/
inductive Piece where
  | segment (segment : Segment)
  | leftBrace
  | rightBrace

/-- How a piece of a text is written. -/
def Piece.chars : Piece → List Char
  | segment s => s.chars
  | leftBrace => ['\x7b']
  | rightBrace => ['\x7d']

/-- The comments and literals of a piece of a text. -/
def Piece.trivia (offset : Nat) : Piece → List Trivia
  | segment s => s.trivia offset
  | leftBrace | rightBrace => []

/-- The comments and literals of pieces of a text that start at the given offset, in order. -/
def Piece.triviaOf (offset : Nat) : List Piece → List Trivia
  | [] => []
  | piece :: rest => piece.trivia offset ++ Piece.triviaOf (offset + width piece.chars) rest

/-- A line comment with nothing behind it. -/
structure LastComment where
  content : List Char
  oneLine : '\n' ∉ content

/-- How the last line comment is written. -/
def LastComment.chars (comment : LastComment) : List Char := '/' :: '/' :: comment.content

/-- A text, given by its pieces. It may end with a line comment. -/
structure Segmentation where
  pieces : List Piece
  last : Option LastComment

namespace Segmentation

variable (text : Segmentation)

/-- The characters of the pieces. -/
def body : List Char := text.pieces.flatMap Piece.chars

/-- The characters of a text. -/
def chars : List Char := text.body ++ (text.last.map LastComment.chars).getD []

/-- The comments and literals of a text, in order. -/
def trivia : List Trivia :=
  Piece.triviaOf 0 text.pieces ++
    (text.last.map fun comment =>
      ⟨.comment, width text.body, width text.body + width comment.chars⟩).toList

end Segmentation

end Written

/-! ## Scanning literals -/

namespace Scan

open Written

variable {depths depths' : List Nat}

/-- Bytes beyond ASCII are none of the given ones. -/
theorem notMem_of_le {b : UInt8} {codes : List UInt8} (hcodes : ∀ code ∈ codes, code < 0x80)
    (hb : 0x80 ≤ b) : b ∉ codes :=
  fun hmem => UInt8.not_le.2 (hcodes b hmem) hb

/-- A backslash and the first byte behind it, which it takes with it; the other bytes of the
character lie beyond ASCII. -/
theorem exists_escaped (c : Char) :
    ∃ first tail, bytesOf (Letter.escaped c).chars = 0x5C :: first :: tail ∧
      ∀ b ∈ tail, 0x80 ≤ b := by
  obtain ⟨first, tail, hbytes, htail⟩ := exists_head_byte c
  refine ⟨first, tail, ?_, htail⟩
  rw [Letter.chars, bytesOf_cons, bytesOf_cons, hbytes, bytesOf_nil, List.append_nil]
  rfl

/-- A character that is none of the given ones has no byte of theirs. -/
theorem notMem_of_mem_plain {c : Char} {codes : List UInt8} {chars : List Char}
    (hcodes : ∀ code ∈ codes, ∃ d ∈ chars, isAscii d ∧ UInt8.ofNat d.toNat = code)
    (h : c ∉ chars) : ∀ b ∈ bytesOf (Letter.plain c).chars, b ∉ codes := by
  intro b hb
  rw [Letter.chars, bytesOf_cons, bytesOf_nil, List.append_nil] at hb
  exact notMem_of_mem_utf8EncodeChar hcodes h hb

/-- A string goes on over its content. -/
theorem stringTail_letters {b : UInt8} {quote : Char} (hb : b ∈ [0x27, 0x22])
    (hquote : isAscii quote ∧ UInt8.ofNat quote.toNat = b) {letters : List Letter}
    (h : ∀ c, .plain c ∈ letters → c ∉ [quote, '\x5c', '\n']) (rest : List UInt8) :
    stringTail b (bytesOf (Letter.text letters) ++ rest) =
      width (Letter.text letters) + stringTail b rest := by
  induction letters with
  | nil => exact (Nat.zero_add _).symm
  | cons letter more ih =>
    specialize ih fun c hc => h c (List.mem_cons_of_mem _ hc)
    have htext : Letter.text (letter :: more) = letter.chars ++ Letter.text more := rfl
    rw [htext, bytesOf_append, width_append, List.append_assoc]
    cases letter with
    | plain c =>
      have hcodes : ∀ code ∈ [b, 0x5C, 0x0A], ∃ d ∈ [quote, '\x5c', '\n'],
          isAscii d ∧ UInt8.ofNat d.toNat = code := by
        simp only [List.forall_mem_cons]
        exact ⟨⟨quote, by simp, hquote⟩, ⟨'\x5c', by simp, by decide⟩, ⟨'\n', by simp, by decide⟩,
          by simp⟩
      have hskip := notMem_of_mem_plain hcodes (h c List.mem_cons_self)
      rw [stringTail_skip hskip, ih, length_bytesOf, Nat.add_assoc]
    | escaped c =>
      -- the backslash takes the first byte of the character; the others are skipped anyway
      obtain ⟨first, tail, hbytes, htail⟩ := exists_escaped c
      have hlow : ∀ code ∈ [b, 0x5C, 0x0A], code < 0x80 := by
        have hlow : b < 0x80 := by rcases List.mem_pair.1 hb with rfl | rfl <;> decide
        exact List.forall_mem_cons.2 ⟨hlow, List.forall_mem_cons.2
          ⟨by decide, List.forall_mem_singleton.2 (by decide)⟩⟩
      have hskip : ∀ code ∈ tail, code ∉ [b, 0x5C, 0x0A] :=
        fun code hcode => notMem_of_le hlow (htail code hcode)
      rw [← length_bytesOf (Letter.escaped c).chars, hbytes, List.cons_append, List.cons_append,
        stringTail.eq_def]
      simp only [beq_self_eq_true, if_true, stringTail_skip hskip, ih, List.length_cons]
      omega

/-- Template text goes on over bytes that are neither backticks nor escapes nor dollar signs. -/
theorem templateTail_skip {bytes : List UInt8} (h : ∀ b ∈ bytes, b ∉ [0x60, 0x5C, 0x24])
    (rest : List UInt8) :
    templateTail (bytes ++ rest) =
      (bytes.length + (templateTail rest).1, (templateTail rest).2) := by
  induction bytes with
  | nil => rw [List.nil_append, List.length_nil, Nat.zero_add]
  | cons b more ih =>
    obtain ⟨hb, hmore⟩ := List.forall_mem_cons.1 h
    simp only [List.mem_cons, List.not_mem_nil, or_false, not_or] at hb
    obtain ⟨hquote, hescape, hdollar⟩ := hb
    rw [List.cons_append, templateTail.eq_def]
    simp only [beq_eq_false_iff_ne.2 hescape, beq_eq_false_iff_ne.2 hquote,
      beq_eq_false_iff_ne.2 hdollar, ih hmore, List.length_cons, Bool.false_and,
      Bool.false_eq_true, if_false]
    rw [Nat.add_right_comm]

/-- What follows a dollar sign inside of a stretch is no brace. -/
theorem head_letters {letters : List Letter} {rest : List UInt8}
    (h : ¬ [Letter.plain '$', .plain '\x7b'] <:+: .plain '$' :: letters)
    (hrest : rest.head? ≠ some 0x7B) :
    (bytesOf (Letter.text letters) ++ rest).head? ≠ some 0x7B := by
  cases letters with
  | nil => exact hrest
  | cons letter more =>
    have htext : Letter.text (letter :: more) = letter.chars ++ Letter.text more := rfl
    rw [htext]
    cases letter with
    | plain c =>
      intro hhead
      rw [bytesOf_append, List.append_assoc, Letter.chars, bytesOf_cons, List.append_assoc,
        List.head?_append_of_ne_nil _ String.utf8EncodeChar_ne_nil] at hhead
      obtain rfl : c = '\x7b' := eq_of_mem_utf8EncodeChar (by decide) (List.mem_of_mem_head? hhead)
      exact h ⟨[], more, rfl⟩
    | escaped c =>
      show some 0x5C ≠ some 0x7B
      decide

/-- Template text goes on over a stretch. -/
theorem templateTail_letters {letters : List Letter}
    (complete : ∀ c, .plain c ∈ letters → c ∉ ['\x60', '\x5c'])
    (unbroken : ¬ [Letter.plain '$', .plain '\x7b'] <:+: letters) {rest : List UInt8}
    (hrest : rest.head? ≠ some 0x7B) :
    templateTail (bytesOf (Letter.text letters) ++ rest) =
      (width (Letter.text letters) + (templateTail rest).1, (templateTail rest).2) := by
  induction letters with
  | nil => exact Prod.ext (Nat.zero_add _).symm rfl
  | cons letter more ih =>
    specialize ih (fun c hc => complete c (List.mem_cons_of_mem _ hc))
      fun hinfix => unbroken (List.infix_cons hinfix)
    have htext : Letter.text (letter :: more) = letter.chars ++ Letter.text more := rfl
    rw [htext, bytesOf_append, width_append, List.append_assoc]
    cases letter with
    | plain c =>
      by_cases hdollar : c = '$'
      · -- a dollar sign, which no brace follows
        subst hdollar
        have hhead := head_letters unbroken hrest
        show templateTail (0x24 :: (bytesOf (Letter.text more) ++ rest)) = _
        rw [templateTail.eq_def]
        simp only [beq_eq_false_iff_ne.2 hhead, ih, Bool.and_false, Bool.false_eq_true, if_false]
        refine Prod.ext ?_ rfl
        show width (Letter.text more) + (templateTail rest).1 + 1 =
          1 + width (Letter.text more) + (templateTail rest).1
        omega
      · have hcodes : ∀ code ∈ [0x60, 0x5C, 0x24], ∃ d ∈ ['\x60', '\x5c', '$'],
            isAscii d ∧ UInt8.ofNat d.toNat = code := by
          simp [isAscii]
        have hother : c ∉ ['\x60', '\x5c', '$'] := by
          have := complete c List.mem_cons_self
          simp_all
        have hskip := notMem_of_mem_plain hcodes hother
        rw [templateTail_skip hskip, ih, length_bytesOf, Nat.add_assoc]
    | escaped c =>
      obtain ⟨first, tail, hbytes, htail⟩ := exists_escaped c
      have hlow : ∀ code ∈ ([0x60, 0x5C, 0x24] : List UInt8), code < 0x80 :=
        List.forall_mem_cons.2 ⟨by decide, List.forall_mem_cons.2
          ⟨by decide, List.forall_mem_singleton.2 (by decide)⟩⟩
      have hskip : ∀ code ∈ tail, code ∉ [0x60, 0x5C, 0x24] :=
        fun code hcode => notMem_of_le hlow (htail code hcode)
      rw [← length_bytesOf (Letter.escaped c).chars, hbytes, List.cons_append, List.cons_append,
        templateTail.eq_def]
      simp only [beq_self_eq_true, if_true, templateTail_skip hskip, ih, List.length_cons]
      refine Prod.ext ?_ rfl
      show tail.length + (width (Letter.text more) + (templateTail rest).1) + 2 =
        tail.length + 1 + 1 + width (Letter.text more) + (templateTail rest).1
      omega

/-! ## Scanning segments -/

theorem Passes.congr {bytes bytes' : List UInt8} {found found' : Nat → List Trivia}
    (h : Passes depths depths' bytes found) (hbytes : bytes = bytes')
    (hfound : ∀ offset, found offset = found' offset) :
    Passes depths depths' bytes' found' := by
  obtain rfl := hbytes
  obtain rfl : found = found' := funext hfound
  exact h

/-- The braces that are open behind an opening one. Outside of all templates they are not
counted. -/
def opened : List Nat → List Nat
  | [] => []
  | depth :: outer => (depth + 1) :: outer

theorem passes_leftBrace : Passes depths (opened depths) [0x7B] fun _ => [] := by
  intro offset before lead rest
  refine ⟨0x7B :: before, 0x7B :: before, ?_⟩
  rw [List.singleton_append, scanFrom]
  cases depths <;> simp [step, Step.code, opened]

theorem passes_rightBrace : Passes (opened depths) depths [0x7D] fun _ => [] := by
  intro offset before lead rest
  refine ⟨0x7D :: before, 0x7D :: before, ?_⟩
  rw [List.singleton_append, scanFrom]
  cases depths <;> simp [step, Step.code, opened]

theorem passes_string (literal : StringLiteral) :
    Passes depths depths (bytesOf literal.chars) fun offset =>
      [⟨.literal, offset, offset + width literal.chars⟩] := by
  obtain ⟨quote, isQuote, content, complete⟩ := literal
  obtain ⟨b, hb, hascii, hquote⟩ := exists_byte_of_quote isQuote
  have hbody : bytesOf (Letter.text content ++ [quote]) = bytesOf (Letter.text content) ++ [b] := by
    rw [bytesOf_append, bytesOf_cons, hquote, bytesOf_nil, List.append_nil]
  have hchars : bytesOf (StringLiteral.chars ⟨quote, isQuote, content, complete⟩) =
      b :: (bytesOf (Letter.text content) ++ [b]) := by
    rw [StringLiteral.chars, bytesOf_cons, hbody, hquote, List.singleton_append]
  have hstep : ∀ lead rest, step lead depths b (bytesOf (Letter.text content) ++ [b] ++ rest) =
      .literal (bytesOf (Letter.text content) ++ [b]).length depths := by
    intro lead rest
    have htail : stringTail b (bytesOf (Letter.text content) ++ [b] ++ rest) =
        (bytesOf (Letter.text content) ++ [b]).length := by
      rw [List.append_assoc, List.singleton_append, stringTail_letters hb hascii complete,
        stringTail_quote hb, List.length_append, length_bytesOf, List.length_singleton]
    rw [← htail]
    rcases List.mem_pair.1 hb with rfl | rfl <;> rfl
  refine (passes_literal hstep).congr hchars.symm fun offset => ?_
  rw [← length_bytesOf, hchars, List.length_cons]

/-- The braces that are open behind a stretch of template text. -/
def behind (depths : List Nat) : TemplateEnd → List Nat
  | .substitution => 0 :: depths
  | .closed | .unfinished => depths

/-- What ends a stretch: template text goes on through it, and no further. -/
structure Ends (closer : List Char) (ending : TemplateEnd) : Prop where
  tail : ∀ rest, templateTail (bytesOf closer ++ rest) = (width closer, ending)
  head : ∀ rest, (bytesOf closer ++ rest).head? ≠ some 0x7B

theorem ends_closed : Ends ['\x60'] .closed where
  tail rest := by
    show templateTail (0x60 :: rest) = (1, .closed)
    rw [templateTail.eq_def]
    rfl
  head rest := by
    show some 0x60 ≠ some 0x7B
    decide

theorem ends_substitution : Ends ['$', '\x7b'] .substitution where
  tail rest := by
    show templateTail (0x24 :: 0x7B :: rest) = (2, .substitution)
    rw [templateTail.eq_def]
    rfl
  head rest := by
    show some 0x24 ≠ some 0x7B
    decide

/-- The scan passes over a stretch and what ends it. The stretch follows a backtick or a brace, at
which the scan goes on with template text. -/
theorem passes_stretch {b : UInt8} {closer : List Char} {ending : TemplateEnd}
    (hstep : ∀ lead rest, step lead depths b rest = .template rest depths')
    (stretch : Stretch) (hends : Ends closer ending) :
    Passes depths (behind depths' ending) (b :: bytesOf (stretch.chars ++ closer)) fun offset =>
      [⟨.literal, offset, offset + 1 + width stretch.chars + width closer⟩] := by
  have hlength : (bytesOf (stretch.chars ++ closer)).length =
      width stretch.chars + width closer := by
    rw [length_bytesOf, width_append]
  have hliteral : ∀ lead rest, step lead depths b (bytesOf (stretch.chars ++ closer) ++ rest) =
      .literal (bytesOf (stretch.chars ++ closer)).length (behind depths' ending) := by
    intro lead rest
    have htail := templateTail_letters stretch.complete stretch.unbroken (hends.head rest)
    rw [hends.tail] at htail
    rw [hstep, hlength, bytesOf_append, List.append_assoc, Step.template, Stretch.chars, htail]
    cases ending <;> rfl
  refine (passes_literal hliteral).congr rfl fun offset => ?_
  rw [hlength]
  congr 2
  omega

mutual

/-- The scan passes over a piece of code and finds what there is in it, to any depth. -/
theorem passes_segment (depths : List Nat) : (segment : Segment) →
    Passes depths depths (bytesOf segment.chars) fun offset => segment.trivia offset
  | .code c isCode => by
    have hplain : (Mark.code c).isPlain := by
      rw [Mark.isPlain, Bool.not_eq_true', Bool.eq_false_iff, Ne, List.contains_iff_mem]
      exact isCode
    have hfound : ∀ offset, [] = (Segment.code c isCode).trivia offset := by
      intro offset
      rw [Segment.trivia]
    refine (passes_char hplain).congr ?_ hfound
    rw [Segment.chars, bytesOf_cons, bytesOf_nil, List.append_nil]
  | .filler piece => by
    have hplain : (Mark.filler piece).isPlain := rfl
    refine (passes_mark hplain).congr ?_ fun offset => ?_
    · rw [Segment.chars, Mark.chars]
    · rw [Segment.trivia]
  | .braces inner => by
    refine (passes_leftBrace.append ((passes_segments (opened depths) inner).append
      passes_rightBrace)).congr ?_ fun offset => ?_
    · rw [Segment.chars, bytesOf_cons, bytesOf_append]
      rfl
    · rw [Segment.trivia, List.nil_append, List.append_nil]
      rfl
  | .string literal => by
    refine (passes_string literal).congr ?_ fun offset => ?_
    · rw [Segment.chars]
    · rw [Segment.trivia]
  | .template stretch rest => by
    have hstep : ∀ lead more, step lead depths 0x60 more = .template more depths := fun _ _ => rfl
    refine (passes_rest hstep stretch rest).congr ?_ fun offset => ?_
    · rw [Segment.chars, bytesOf_cons]
      rfl
    · rw [Segment.trivia]

/-- The scan passes over code. -/
theorem passes_segments (depths : List Nat) : (segments : List Segment) →
    Passes depths depths (bytesOf (Segment.text segments)) fun offset =>
      Segment.triviaOf offset segments
  | [] => by
    refine passes_nil.congr ?_ fun offset => ?_
    · rw [Segment.text, bytesOf_nil]
    · rw [Segment.triviaOf]
  | segment :: rest => by
    refine ((passes_segment depths segment).append (passes_segments depths rest)).congr ?_
      fun offset => ?_
    · rw [Segment.text, bytesOf_append]
    · rw [Segment.triviaOf, length_bytesOf]

/-- The scan passes over a stretch and over the rest of the template. -/
theorem passes_rest {b : UInt8} {depths depths' : List Nat}
    (hstep : ∀ lead more, step lead depths b more = .template more depths') (stretch : Stretch) :
    (rest : TemplateRest) →
    Passes depths depths' (b :: bytesOf (stretch.chars ++ rest.chars)) fun offset =>
      rest.trivia offset (offset + 1 + width stretch.chars)
  | .closed => by
    refine (passes_stretch hstep stretch ends_closed).congr ?_ fun offset => ?_
    · rw [TemplateRest.chars]
    · rw [TemplateRest.trivia]
      rfl
  | .substitution inner next rest => by
    -- the brace that closes the substitution continues the template
    have hclose : ∀ lead more, step lead (0 :: depths') 0x7D more = .template more depths' :=
      fun _ _ => rfl
    have hchars : stretch.chars ++ (TemplateRest.substitution inner next rest).chars =
        (stretch.chars ++ ['$', '\x7b']) ++
          (Segment.text inner ++ '\x7d' :: (next.chars ++ rest.chars)) := by
      rw [TemplateRest.chars, List.append_assoc]
      rfl
    have hlength : ∀ offset, offset + (b :: bytesOf (stretch.chars ++ ['$', '\x7b'])).length =
        offset + 1 + width stretch.chars + 2 := by
      intro offset
      rw [List.length_cons, length_bytesOf, width_append]
      show offset + (width stretch.chars + 2 + 1) = _
      omega
    refine ((passes_stretch hstep stretch ends_substitution).append
      ((passes_segments (0 :: depths') inner).append
        (passes_rest hclose next rest))).congr ?_ fun offset => ?_
    · rw [hchars, bytesOf_append (stretch.chars ++ _), bytesOf_append (Segment.text inner),
        bytesOf_cons]
      rfl
    · rw [TemplateRest.trivia, hlength, length_bytesOf]
      rfl

end

/-- The scan passes over a piece of a text. -/
theorem passes_piece (piece : Piece) :
    Passes [] [] (bytesOf piece.chars) fun offset => piece.trivia offset := by
  cases piece with
  | segment s => exact passes_segment [] s
  | leftBrace => exact passes_brace (.inl rfl)
  | rightBrace => exact passes_brace (.inr rfl)

theorem passes_pieces (pieces : List Piece) :
    Passes [] [] (bytesOf (pieces.flatMap Piece.chars)) fun offset =>
      Piece.triviaOf offset pieces := by
  induction pieces with
  | nil => exact passes_nil
  | cons piece rest ih =>
    refine ((passes_piece piece).append ih).congr ?_ fun offset => ?_
    · rw [List.flatMap_cons, bytesOf_append]
    · rw [Piece.triviaOf, length_bytesOf]

/-- A line comment goes on to the end of the text if there is no line feed. -/
theorem scanFrom_lastComment (comment : LastComment) (offset : Nat) (before lead : List UInt8) :
    scanFrom offset before lead depths (bytesOf comment.chars) =
      [⟨.comment, offset, offset + width comment.chars⟩] := by
  have hwidth : width comment.chars = 2 + width comment.content := by
    show 1 + (1 + width comment.content) = _
    omega
  have hstep : step lead depths 0x2F (0x2F :: bytesOf comment.content) =
      .comment (lineCommentTail (0x2F :: bytesOf comment.content)) depths := rfl
  have htail : lineCommentTail (0x2F :: bytesOf comment.content) = 1 + width comment.content := by
    rw [lineCommentTail, List.takeWhile_eq_self_iff.2 (line_bytes comment.oneLine),
      List.length_cons, length_bytesOf, Nat.add_comm]
  have hread : (Step.comment (1 + width comment.content) depths).extra =
      (0x2F :: bytesOf comment.content).length := by
    rw [List.length_cons, length_bytesOf, Nat.add_comm]
    rfl
  show scanFrom offset before lead depths (0x2F :: 0x2F :: bytesOf comment.content) = _
  rw [scanFrom, hstep, htail, hread, List.drop_length, scanFrom, ← hread, hwidth]
  show [Trivia.mk .comment offset (offset + 1 + (1 + width comment.content))] = _
  congr 2
  omega

end Scan

namespace Written

/-- A scan recovers how a text is made up of code, comments, strings and templates: it finds the
comments, the strings and the stretches of template text, each where it stands and as what it is,
and nothing else. It does so whether or not searches skip what is found. -/
theorem scan_recovers_segmentation (text : Segmentation) (mode : ScanMode) :
    (Source.ofString (String.ofList text.chars) mode).trivia.toList = text.trivia := by
  have hscan : (Source.ofString (String.ofList text.chars) mode).trivia.toList =
      Scan.scan (bytesOf text.chars) := by
    rw [← encoded_ofList]
    rfl
  obtain ⟨before, lead, hbody⟩ := Scan.passes_pieces text.pieces 0 [] []
    (bytesOf ((text.last.map LastComment.chars).getD []))
  rw [hscan, Scan.scan, Segmentation.chars, bytesOf_append, Segmentation.body, hbody,
    Segmentation.trivia, length_bytesOf, Nat.zero_add]
  congr 1
  cases text.last with
  | none =>
    rw [Option.map_none, Option.getD_none, bytesOf_nil, Scan.scanFrom]
    rfl
  | some comment => exact Scan.scanFrom_lastComment comment _ _ _

/-- A template in which a string in braces holds a closing brace, and a line comment at the end. -/
example :
    let brace : StringLiteral := ⟨'\x27', .inl rfl, [.plain '\x7d'], by simp⟩
    let text : Stretch := ⟨[.escaped '\x60', .plain '$'], by simp, by decide⟩
    let template : Segment := .template text (.substitution [.braces [.string brace]] text .closed)
    Segmentation.trivia ⟨[.segment template, .rightBrace], some ⟨['/'], by decide⟩⟩ =
      [⟨.literal, 0, 6⟩, ⟨.literal, 7, 10⟩, ⟨.literal, 11, 16⟩, ⟨.comment, 17, 20⟩] := by
  decide

end Written

end Concretion
