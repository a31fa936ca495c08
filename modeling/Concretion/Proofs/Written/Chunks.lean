import Concretion.Proofs.Scanned
import Concretion.Proofs.Written.Chars
import Concretion.Proofs.Written.Texts

/-!
# Chunks

A text of words, signs and strings in quotes, with white space and comments between them. The scan
finds its comments and strings, and nothing else, and a search for a word or a sign finds a chunk,
not something inside of one, unless the word is not all letters.

- `Chunk`: a word, a sign, a filler or a string in quotes.
- `Chunk.source`: a text that is given by its chunks.
- `Chunk.At`: the chunks that stand at an offset.
- `Word.isFoundIn`, `Chunk.lack`: the words in which a search for another word stops.
- `Chunk.At.findWord`, `Chunk.At.findLastWord`, `Chunk.At.findStar`, `Chunk.At.findString`:
  what is looked for is found where the chunks have it.
-/

namespace Concretion

open Text

namespace Written

/-- A word of visible characters, as an identifier is. -/
structure Word extends Name where
  visible : ∀ c ∈ chars, isSpace c = false

/-- The word that is spelled by the given characters. -/
def Word.spelled (chars : List Char)
    (h : (!chars.isEmpty && chars.all fun c => isWordChar c && !isSpace c) = true) : Word where
  chars := chars
  nonempty := by
    rintro rfl
    cases h
  word c hc := by
    simp only [Bool.and_eq_true, List.all_eq_true] at h
    exact (h.2 c hc).1
  visible c hc := by
    simp only [Bool.and_eq_true, List.all_eq_true, Bool.not_eq_true'] at h
    exact (h.2 c hc).2

/-- The signs of import and export statements. -/
inductive Sign where
  | comma
  | semicolon
  | star
  | leftBrace
  | rightBrace
  deriving DecidableEq

/-- How a sign is written. -/
def Sign.char : Sign → Char
  | comma => ','
  | semicolon => ';'
  | star => '*'
  | leftBrace => '\x7b'
  | rightBrace => '\x7d'

/-- A string in quotes that has neither quotes nor escapes inside. -/
structure Quoted where
  quote : Char
  isQuote : quote = '\x27' ∨ quote = '\x22'
  content : List Char
  isPlain : ∀ c ∈ content, c ∉ ['\x27', '\x22', '\x5c', '\n']

/-- Either quote is a single byte. -/
theorem exists_byte_of_quote {quote : Char} (h : quote = '\x27' ∨ quote = '\x22') :
    ∃ b ∈ ([0x27, 0x22] : List UInt8), (isAscii quote ∧ UInt8.ofNat quote.toNat = b) ∧
      String.utf8EncodeChar quote = [b] := by
  rcases h with rfl | rfl
  · exact ⟨0x27, by decide, by decide, rfl⟩
  · exact ⟨0x22, by decide, by decide, rfl⟩

def Quoted.text (quoted : Quoted) : String := String.ofList quoted.content

def Quoted.chars (quoted : Quoted) : List Char := quoted.quote :: (quoted.content ++ [quoted.quote])

/-- A piece of a text that a search takes as a whole. -/
inductive Chunk where
  | word (word : Word)
  | sign (sign : Sign)
  | filler (piece : Filler)
  | quoted (quoted : Quoted)

namespace Chunk

/-- How a chunk is written. -/
def chars : Chunk → List Char
  | word w => w.chars
  | sign s => [s.char]
  | filler piece => piece.chars
  | quoted q => q.chars

/-- Is the chunk a word? -/
def isWord : Chunk → Bool
  | word _ => true
  | _ => false

/-- The text of chunks. -/
def text (chunks : List Chunk) : List Char := chunks.flatMap chars

/-- The number of bytes that chunks take. -/
def size (chunks : List Chunk) : Nat := width (text chunks)

/-- White space and comments as they are written. -/
def spread (gap : Gap) : List Chunk := gap.map filler

/-- The range of a comment or of a string that starts at the given offset. -/
def trivia? (chunk : Chunk) (offset : Nat) : Option Trivia :=
  match chunk with
  | filler piece => (Mark.filler piece).comment? offset
  | quoted q => some ⟨.literal, offset, offset + (width q.content + 2)⟩
  | word _ | sign _ => none

/-- The comments and strings among chunks that start at the given offset, in order. -/
def trivia (offset : Nat) : List Chunk → List Trivia
  | [] => []
  | chunk :: rest => (chunk.trivia? offset).toList ++ trivia (offset + size [chunk]) rest

/-- The text of chunks, prepared for searches that skip comments and literals. -/
def source (chunks : List Chunk) : Source := .ofString (String.ofList (text chunks)) .skipTrivia

@[simp] theorem text_nil : text [] = [] := rfl

theorem text_cons (chunk : Chunk) (rest : List Chunk) :
    text (chunk :: rest) = chunk.chars ++ text rest := rfl

@[simp] theorem text_append (a b : List Chunk) : text (a ++ b) = text a ++ text b :=
  List.flatMap_append

@[simp] theorem size_nil : size [] = 0 := rfl

@[simp] theorem size_append (a b : List Chunk) : size (a ++ b) = size a + size b := by
  rw [size, text_append, width_append, size, size]

theorem size_cons (chunk : Chunk) (rest : List Chunk) :
    size (chunk :: rest) = size [chunk] + size rest :=
  size_append [chunk] rest

@[simp] theorem size_word (w : Word) : size [word w] = width w.chars := by
  rw [size, text_cons, text_nil, List.append_nil, chars]

@[simp] theorem size_sign (s : Sign) : size [sign s] = 1 := by
  cases s <;> decide

theorem width_quoted (quoted : Quoted) : width quoted.chars = width quoted.content + 2 := by
  obtain ⟨quote, rfl | rfl, content, isPlain⟩ := quoted <;>
  · rw [Quoted.chars, width_cons, width_append]
    show 1 + (width content + 1) = width content + 2
    omega

@[simp] theorem size_quoted (q : Quoted) : size [quoted q] = width q.content + 2 := by
  rw [size, text_cons, text_nil, List.append_nil, chars, width_quoted]

theorem trivia_append (offset : Nat) (a b : List Chunk) :
    trivia offset (a ++ b) = trivia offset a ++ trivia (offset + size a) b := by
  induction a generalizing offset with
  | nil => rfl
  | cons chunk rest ih =>
    rw [List.cons_append, trivia, trivia, ih, List.append_assoc, size_cons chunk rest,
      Nat.add_assoc]

/-- A comment or a string lies inside of its chunk. -/
theorem trivia_bounds {chunk : Chunk} {offset : Nat} {found : Trivia}
    (h : chunk.trivia? offset = some found) :
    found.start = offset ∧ found.start < found.finish ∧
      found.finish ≤ offset + size [chunk] := by
  cases chunk with
  | word w => cases h
  | sign s => cases h
  | filler piece =>
    have hcomment : (Mark.filler piece).comment? offset = some found := h
    have hlt : found.start < found.finish := by
      cases piece <;> cases h <;> exact Nat.lt_add_of_pos_right (Nat.succ_pos _)
    obtain ⟨hstart, hfinish⟩ := Mark.comment_bounds hcomment
    exact ⟨hstart, hlt, hfinish⟩
  | quoted q =>
    cases h
    exact ⟨rfl, Nat.lt_add_of_pos_right (Nat.succ_pos _), by rw [size_quoted]⟩

/-- Comments and strings lie inside of the chunks they are among. -/
theorem bounds_of_mem_trivia {offset : Nat} {chunks : List Chunk} {found : Trivia}
    (h : found ∈ trivia offset chunks) :
    offset ≤ found.start ∧ found.start < found.finish ∧ found.finish ≤ offset + size chunks := by
  induction chunks generalizing offset with
  | nil => cases h
  | cons chunk rest ih =>
    rw [size_cons]
    rcases List.mem_append.1 h with h | h
    · have := trivia_bounds (Option.mem_toList.1 h)
      omega
    · have := ih h
      omega

end Chunk

end Written

/-! ## Scanning chunks -/

namespace Scan

open Written

variable {depths depths' : List Nat}

theorem passes_brace {b : UInt8} (h : b = 0x7B ∨ b = 0x7D) : Passes [] [] [b] fun _ => [] := by
  intro offset before lead rest
  refine ⟨b :: before, b :: before, ?_⟩
  rcases h with rfl | rfl <;>
  · rw [List.singleton_append, scanFrom]
    simp [step, Step.code]

/-- A string goes on over bytes that are neither its quote nor escapes nor line feeds. -/
theorem stringTail_skip {quote : UInt8} {bytes : List UInt8}
    (h : ∀ b ∈ bytes, b ∉ [quote, 0x5C, 0x0A]) (rest : List UInt8) :
    stringTail quote (bytes ++ rest) = bytes.length + stringTail quote rest := by
  induction bytes with
  | nil => exact (Nat.zero_add _).symm
  | cons b more ih =>
    obtain ⟨hb, hmore⟩ := List.forall_mem_cons.1 h
    simp only [List.mem_cons, List.not_mem_nil, or_false, not_or] at hb
    obtain ⟨hquote, hescape, hfeed⟩ := hb
    rw [List.cons_append, stringTail.eq_def]
    simp only [beq_eq_false_iff_ne.2 hescape, beq_eq_false_iff_ne.2 hfeed,
      beq_eq_false_iff_ne.2 hquote, ih hmore, List.length_cons]
    exact Nat.add_right_comm _ _ _

/-- A string ends with its quote. -/
theorem stringTail_quote {quote : UInt8} (hquote : quote ∈ [0x27, 0x22]) (rest : List UInt8) :
    stringTail quote (quote :: rest) = 1 := by
  rcases List.mem_pair.1 hquote with rfl | rfl <;>
  · unfold stringTail
    rfl

/-- A string goes on to the first quote behind bytes that are neither quotes nor escapes nor line
feeds. -/
theorem stringTail_content {quote : UInt8} {bytes : List UInt8} (hquote : quote ∈ [0x27, 0x22])
    (h : ∀ b ∈ bytes, b ∉ [0x27, 0x22, 0x5C, 0x0A]) (rest : List UInt8) :
    stringTail quote (bytes ++ quote :: rest) = bytes.length + 1 := by
  have hskip : ∀ b ∈ bytes, b ∉ [quote, 0x5C, 0x0A] := by
    intro b hb hmem
    have hother := h b hb
    rcases List.mem_pair.1 hquote with rfl | rfl <;> simp_all
  rw [stringTail_skip hskip, stringTail_quote hquote]

/-- The scan passes over a literal that is found in one step. -/
theorem passes_literal {b : UInt8} {body : List UInt8}
    (hstep : ∀ lead rest, step lead depths b (body ++ rest) = .literal body.length depths') :
    Passes depths depths' (b :: body) fun offset =>
      [⟨.literal, offset, offset + (body.length + 1)⟩] := by
  intro offset before lead rest
  have hread : (Step.literal body.length depths').extra = body.length := rfl
  have hfinish : offset + (body.length + 1) = offset + 1 + body.length := by omega
  refine ⟨body.reverse ++ b :: before, body.reverse ++ b :: before, ?_⟩
  rw [List.cons_append, scanFrom, hstep, hread, List.take_left, List.drop_left, List.length_cons]
  show ⟨.literal, offset, offset + 1 + body.length⟩ ::
      scanFrom (offset + 1 + body.length) _ _ depths' _ =
    ⟨.literal, offset, offset + (body.length + 1)⟩ ::
      scanFrom (offset + (body.length + 1)) _ _ depths' _
  rw [hfinish]
  rfl

theorem passes_quoted (quoted : Quoted) :
    Passes depths depths (bytesOf quoted.chars) fun offset =>
      [⟨.literal, offset, offset + (width quoted.content + 2)⟩] := by
  obtain ⟨quote, isQuote, content, isPlain⟩ := quoted
  have hplain : ∀ b ∈ bytesOf content, b ∉ [0x27, 0x22, 0x5C, 0x0A] := by
    intro b hb hmem
    have hcodes : ∀ b ∈ ([0x27, 0x22, 0x5C, 0x0A] : List UInt8),
        ∃ d ∈ ['\x27', '\x22', '\x5c', '\n'], isAscii d ∧ UInt8.ofNat d.toNat = b := by
      simp [isAscii]
    obtain ⟨d, hd, hascii, rfl⟩ := hcodes b hmem
    obtain ⟨c, hc, hbytes⟩ := List.mem_flatMap.1 hb
    obtain rfl := eq_of_mem_utf8EncodeChar hascii hbytes
    exact isPlain c hc hd
  have hlength : (bytesOf (content ++ [quote])).length = width content + 1 := by
    rw [length_bytesOf, width_append]
    rcases isQuote with rfl | rfl <;> rfl
  obtain ⟨b, hb, -, hquote⟩ := exists_byte_of_quote isQuote
  have hstep : ∀ lead rest, step lead depths b (bytesOf (content ++ [quote]) ++ rest) =
      .literal (bytesOf (content ++ [quote])).length depths := by
    intro lead rest
    have htail := stringTail_content hb hplain rest
    have hrest : bytesOf (content ++ [quote]) ++ rest = bytesOf content ++ b :: rest := by
      rw [bytesOf_append, bytesOf_cons, hquote, bytesOf_nil, List.append_assoc]
      rfl
    rw [hrest, hlength, ← length_bytesOf, ← htail]
    rcases List.mem_pair.1 hb with rfl | rfl <;> rfl
  have hpasses := passes_literal hstep
  rw [hlength] at hpasses
  rw [Quoted.chars, bytesOf_cons, hquote]
  exact hpasses

theorem passes_code {chars : List Char} (h : ∀ c ∈ chars, (Mark.code c).isPlain) :
    Passes depths depths (bytesOf chars) fun _ => [] := by
  induction chars with
  | nil => exact passes_nil
  | cons c rest ih =>
    obtain ⟨hc, hrest⟩ := List.forall_mem_cons.1 h
    exact (passes_char hc).append (ih hrest)

theorem passes_chunk (chunk : Chunk) :
    Passes [] [] (bytesOf chunk.chars) fun offset => (chunk.trivia? offset).toList := by
  cases chunk with
  | word w => exact passes_code fun c hc => plain_of_word w.word _ (List.mem_map_of_mem hc)
  | sign s =>
    have hbytes : bytesOf (Chunk.sign s).chars = String.utf8EncodeChar s.char := List.append_nil _
    rw [hbytes]
    cases s with
    | comma => exact passes_char (c := ',') (by decide)
    | semicolon => exact passes_char (c := ';') (by decide)
    | star => exact passes_char (c := '*') (by decide)
    | leftBrace => exact passes_brace (.inl rfl)
    | rightBrace => exact passes_brace (.inr rfl)
  | filler piece =>
    have hplain : (Mark.filler piece).isPlain := rfl
    exact passes_mark hplain
  | quoted q => exact passes_quoted q

/-- The scan finds the comments and the strings of a text, and nothing else. -/
theorem scan_chunks (chunks : List Chunk) :
    scan (bytesOf (Chunk.text chunks)) = Chunk.trivia 0 chunks := by
  have hpasses : Passes [] [] (bytesOf (Chunk.text chunks)) fun offset =>
      Chunk.trivia offset chunks := by
    induction chunks with
    | nil => exact passes_nil
    | cons chunk rest ih =>
      have hsize : (bytesOf chunk.chars).length = Chunk.size [chunk] := by
        rw [length_bytesOf, Chunk.size, Chunk.text_cons, Chunk.text_nil, List.append_nil]
      have happend := (passes_chunk chunk).append ih
      rw [hsize, ← bytesOf_append] at happend
      exact happend
  obtain ⟨before, lead, hrun⟩ := hpasses 0 [] [] []
  rw [List.append_nil, scanFrom, List.append_nil] at hrun
  exact hrun

end Scan

end Concretion
