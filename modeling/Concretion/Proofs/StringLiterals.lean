import Concretion.Proofs.Segments

/-!
# String literals

A string literal of the language may go on over several lines: a backslash in front of a line break
continues it. The scan takes one byte behind a backslash with it. That is enough for all escape
sequences and for all line breaks but one, a carriage return with a line feed behind it: the line
feed is left and breaks the literal off.

- `Source.ReadsCode`: the offsets at which the scan reads code.
- `Source.readsCode_iff`: these are the offsets that no range has in its interior.
- `Source.OneLiteral`: a stretch of the text that is recorded as one literal.
- `LineBreak`, `Element`, `ScriptString`: how string literals are written.
- `ScriptString.scanned_to`: how far the scan gets in a literal.
- `ScriptString.string_is_one_literal_iff`: which literals it takes as a whole.
-/

namespace Concretion

open Text

/-! ## Where the scan reads code -/

namespace Scan

variable {bytes before lead rest : List UInt8} {depths : List Nat} {b : UInt8} {offset : Nat}
  {trivia : Trivia}

/-- The range that a step finds, if any. -/
def Step.range? (s : Step) (offset : Nat) : Option Trivia :=
  s.found.map fun kind => ⟨kind, offset, offset + 1 + s.extra⟩

/-- What is found from an offset on is found by the first step, or from its end on. -/
theorem mem_scanFrom_cons :
    trivia ∈ scanFrom offset before lead depths (b :: rest) ↔
      (step lead depths b rest).range? offset = some trivia ∨
      trivia ∈ scanFrom (offset + 1 + (step lead depths b rest).extra)
        ((rest.take (step lead depths b rest).extra).reverse ++ b :: before)
        (if (step lead depths b rest).significant then
          (rest.take (step lead depths b rest).extra).reverse ++ b :: before
        else lead)
        (step lead depths b rest).depths (rest.drop (step lead depths b rest).extra) := by
  rw [scanFrom, Step.range?]
  cases (step lead depths b rest).found with
  | none => simp
  | some kind => simp only [List.mem_cons, Option.map_some, Option.some_inj, eq_comm (a := trivia)]

/-- A step that finds nothing reads a single byte. -/
theorem extra_of_found_none (h : (step lead depths b rest).found = none) :
    (step lead depths b rest).extra = 0 := by
  revert h
  unfold step Step.template
  repeat' split
  all_goals first | exact fun _ => rfl | exact fun h => absurd h (Option.some_ne_none _)

/-- How many bytes have been read behind a step. -/
theorem length_read (before : List UInt8) (lead : List UInt8) (depths : List Nat) (b : UInt8)
    (rest : List UInt8) :
    ((rest.take (step lead depths b rest).extra).reverse ++ b :: before).length =
      before.length + 1 + (step lead depths b rest).extra := by
  rw [List.length_append, List.length_reverse,
    List.length_take_of_le (step_extra_le lead depths b rest), List.length_cons]
  omega

/-- Where a step starts, all that is found lies before, or it is found from there on. -/
theorem Reached.mem_scan (h : Reached bytes before lead depths rest) :
    (trivia ∈ scan bytes → trivia.finish ≤ before.length ∨
      trivia ∈ scanFrom before.length before lead depths rest) ∧
    (trivia ∈ scanFrom before.length before lead depths rest → trivia ∈ scan bytes) := by
  induction h with
  | start => exact ⟨.inr, id⟩
  | @next before lead depths b rest h ih =>
    rw [mem_scanFrom_cons] at ih
    rw [length_read]
    refine ⟨fun hmem => ?_, fun hlater => ih.2 (.inr hlater)⟩
    rcases ih.1 hmem with hearlier | hrange | hlater
    · exact .inl (by omega)
    · obtain ⟨kind, -, rfl⟩ := Option.map_eq_some_iff.1 hrange
      exact .inl (Nat.le_refl _)
    · exact .inr hlater

/-- From where a step starts, the scan comes to each later offset that no range has in its
interior. -/
theorem Reached.exists_at (h : Reached bytes before lead depths rest)
    (hle : before.length ≤ offset) (hsize : offset ≤ bytes.length)
    (houtside : ∀ trivia ∈ scan bytes, trivia.start < offset → trivia.finish ≤ offset) :
    ∃ before' lead' depths' rest',
      Reached bytes before' lead' depths' rest' ∧ before'.length = offset := by
  induction hlength : rest.length using Nat.strong_induction_on
    generalizing before lead depths rest with
  | _ length ih =>
    by_cases heq : before.length = offset
    · exact ⟨before, lead, depths, rest, h, heq⟩
    obtain ⟨hbytes, -⟩ := h.read
    cases rest with
    | nil =>
      rw [← hbytes, List.append_nil, List.length_reverse] at hsize
      omega
    | cons b rest =>
      refine ih _ ?_ h.next ?_ rfl
      · rw [← hlength, List.length_drop, List.length_cons]
        omega
      · rw [length_read]
        cases hfound : (step lead depths b rest).found with
        | none =>
          rw [extra_of_found_none hfound]
          omega
        | some kind =>
          -- the range that the step finds begins before the offset, so it does not go beyond it
          refine houtside ⟨kind, before.length, _⟩ (h.mem_scan.2 (mem_scanFrom_cons.2 (.inl ?_)))
            (by show before.length < offset; omega)
          rw [Step.range?, hfound]
          rfl

end Scan

namespace Source

variable {source : Source} {start finish offset : Nat} {depths : List Nat}

/-- The scan reads code at the offset, with the given numbers of braces open in the substitutions
around. -/
def ReadsCode (source : Source) (offset : Nat) (depths : List Nat) : Prop :=
  ∃ before lead rest, Scan.Reached source.bytes.toList before lead depths rest ∧
    before.length = offset

/-- The scan reads code just where no comment and no literal has begun without having ended. -/
theorem readsCode_iff :
    (∃ depths, source.ReadsCode offset depths) ↔
      offset ≤ source.size ∧
        ∀ trivia ∈ source.trivia, trivia.start < offset → trivia.finish ≤ offset := by
  constructor
  · rintro ⟨depths, before, lead, rest, hreached, rfl⟩
    obtain ⟨hbytes, -⟩ := hreached.read
    refine ⟨?_, fun trivia hmem hstart => ?_⟩
    · rw [size, ← Array.length_toList, ← hbytes, List.length_append, List.length_reverse]
      exact Nat.le_add_right _ _
    · rcases hreached.mem_scan.1 (source.mem_trivia.1 hmem) with hearlier | hlater
      · exact hearlier
      · have hinside := Scan.scanFrom_inside hlater
        omega
  · rintro ⟨hsize, houtside⟩
    rw [size, ← Array.length_toList] at hsize
    obtain ⟨before, lead, depths, rest, hreached, hlength⟩ := Scan.Reached.start.exists_at
      (Nat.zero_le offset) hsize fun trivia hmem => houtside trivia (source.mem_trivia.2 hmem)
    exact ⟨depths, before, lead, rest, hreached, hlength⟩

/-- What stands from `start` up to `finish` is recorded as a literal, and no part of it as anything
else. -/
structure OneLiteral (source : Source) (start finish : Nat) : Prop where
  recorded : ⟨.literal, start, finish⟩ ∈ source.trivia
  alone : ∀ trivia ∈ source.trivia, trivia.start < finish → start < trivia.finish →
    trivia = ⟨.literal, start, finish⟩

theorem OneLiteral.of_mem (h : ⟨.literal, start, finish⟩ ∈ source.trivia) :
    source.OneLiteral start finish where
  recorded := h
  alone trivia hmem hbefore hbehind := by
    obtain ⟨i, hi⟩ := Array.mem_iff_getElem?.1 h
    obtain ⟨j, hj⟩ := Array.mem_iff_getElem?.1 hmem
    rcases Nat.lt_trichotomy i j with hlt | rfl | hlt
    · have hapart : finish ≤ trivia.start := source.trivia_apart hlt hi hj
      omega
    · rw [hi] at hj
      exact (Option.some.inj hj).symm
    · have hapart : trivia.finish ≤ start := source.trivia_apart hlt hj hi
      omega

/-- There is one place at which a literal ends. -/
theorem OneLiteral.unique {finish' : Nat} (h : source.OneLiteral start finish)
    (h' : source.OneLiteral start finish') : finish = finish' := by
  have hinside := source.trivia_inside h.recorded
  have hinside' := source.trivia_inside h'.recorded
  have heq := h'.alone _ h.recorded hinside'.1 hinside.1
  exact congrArg Trivia.finish heq

/-- Where the scan reads code and a step finds a literal, it reads code again behind the literal. -/
theorem ReadsCode.literal {b : UInt8} {rest : List UInt8} {extra : Nat}
    (h : source.ReadsCode offset depths) (hrest : source.bytes.toList.drop offset = b :: rest)
    (hstep : ∀ lead, Scan.step lead depths b rest = .literal extra depths) :
    source.OneLiteral offset (offset + 1 + extra) ∧
      source.ReadsCode (offset + 1 + extra) depths := by
  obtain ⟨before, lead, rest', hreached, rfl⟩ := h
  obtain rfl : rest' = b :: rest := by
    obtain ⟨hbytes, -⟩ := hreached.read
    rw [← hrest, ← hbytes, ← List.length_reverse, List.drop_left]
  have hextra : (Scan.step lead depths b rest).extra = extra := by rw [hstep]; rfl
  have hdepths : (Scan.step lead depths b rest).depths = depths := by rw [hstep]; rfl
  constructor
  · refine .of_mem (source.mem_trivia.2 (hreached.mem_scan.2 (Scan.mem_scanFrom_cons.2 (.inl ?_))))
    rw [hstep]
    rfl
  · have hnext := hreached.next
    have hlength := Scan.length_read before lead depths b rest
    rw [hextra] at hnext hlength
    rw [hdepths] at hnext
    exact ⟨_, _, _, hnext, hlength⟩

end Source

/-! ## How string literals are written -/

namespace Written

/-- What ends a line. -/
inductive LineBreak where
  | feed
  | carriage
  /-- A carriage return and a line feed count as one line break. -/
  | carriageFeed
  /-- The line separator U+2028. -/
  | separator
  /-- The paragraph separator U+2029. -/
  | paragraph
  deriving DecidableEq

/-- The character that a line break begins with. -/
def LineBreak.first : LineBreak → Char
  | feed => '\n'
  | carriage | carriageFeed => '\r'
  | separator => '\u2028'
  | paragraph => '\u2029'

/-- What a line break has behind its first character. -/
def LineBreak.more : LineBreak → List Char
  | carriageFeed => ['\n']
  | feed | carriage | separator | paragraph => []

/-- The characters that line breaks are made up of. -/
def LineBreak.all : List Char := ['\n', '\r', '\u2028', '\u2029']

/-- What a string literal has between its quotes. -/
inductive Element where
  | plain (c : Char)
  /-- A backslash and the character behind it. Digits that belong to an escape sequence as well are
  plain characters here. -/
  | escape (c : Char)
  /-- A backslash at the end of a line. -/
  | continuation (ending : LineBreak)
  deriving DecidableEq

namespace Element

/-- How an element is written. -/
def chars : Element → List Char
  | plain c => [c]
  | escape c => ['\x5c', c]
  | continuation ending => '\x5c' :: ending.first :: ending.more

/-- How elements are written. -/
def text (elements : List Element) : List Char := elements.flatMap chars

/-- What the scan takes an element for. -/
def letter : Element → Letter
  | plain c => .plain c
  | escape c => .escaped c
  | continuation ending => .escaped ending.first

/-- It takes an element as a whole unless this is a continuation with two characters behind the
backslash. -/
theorem chars_letter {element : Element} (h : element ≠ .continuation .carriageFeed) :
    element.letter.chars = element.chars := by
  cases element with
  | plain c => rfl
  | escape c => rfl
  | continuation ending =>
    cases ending with
    | carriageFeed => exact absurd rfl h
    | feed | carriage | separator | paragraph => rfl

theorem text_letters {elements : List Element} (h : .continuation .carriageFeed ∉ elements) :
    Letter.text (elements.map letter) = text elements := by
  rw [Letter.text, text, List.flatMap_map]
  refine List.flatMap_congr fun element hmem => chars_letter ?_
  rintro rfl
  exact h hmem

end Element

/-- A string literal of the language, in either kind of quotes. -/
structure ScriptString where
  quote : Char
  isQuote : quote = '\x27' ∨ quote = '\x22'
  content : List Element
  plain : ∀ c, .plain c ∈ content → c ∉ [quote, '\x5c', '\r', '\n']
  escape : ∀ c, .escape c ∈ content → c ∉ LineBreak.all

namespace ScriptString

variable (literal : ScriptString) (front behind : List Char) (mode : ScanMode)

/-- How a string literal is written. -/
def chars : List Char := literal.quote :: (Element.text literal.content ++ [literal.quote])

/-- A text with the literal in it. -/
def source : Source := .ofString (String.ofList (front ++ (literal.chars ++ behind))) mode

theorem bytes_source : (literal.source front behind mode).bytes.toList =
    bytesOf front ++ bytesOf (literal.chars ++ behind) := by
  rw [← bytesOf_append]
  exact encoded_ofList _

variable {front behind mode} {depths : List Nat} {whole : List Element} {rest : List Char}

/-- How a quote is encoded. -/
def quoteByte : UInt8 := UInt8.ofNat literal.quote.toNat

theorem quoteByte_spec :
    literal.quoteByte ∈ [0x27, 0x22] ∧ isAscii literal.quote ∧
      String.utf8EncodeChar literal.quote = [literal.quoteByte] := by
  obtain ⟨quote, rfl | rfl, content, plain, escape⟩ := literal
  · exact ⟨List.mem_cons_self, rfl, rfl⟩
  · exact ⟨List.mem_cons_of_mem _ List.mem_cons_self, rfl, rfl⟩

theorem width_chars : width literal.chars = width (Element.text literal.content) + 2 := by
  obtain ⟨-, -, hencode⟩ := literal.quoteByte_spec
  have hquote : width [literal.quote] = 1 := by
    rw [← length_bytesOf, bytesOf_cons, hencode]
    rfl
  rw [chars, ← List.singleton_append, width_append, width_append, hquote]
  omega

/-- The scan goes on over all elements that it takes as a whole, and stops where a string stops. -/
theorem scanned_to (hcode : (literal.source front behind mode).ReadsCode (width front) depths)
    (hchars : literal.chars ++ behind = literal.quote :: (Element.text whole ++ rest))
    (hplain : ∀ c, .plain c ∈ whole → .plain c ∈ literal.content)
    (hwhole : .continuation .carriageFeed ∉ whole) :
    let finish := width front + 1 +
      (width (Element.text whole) + Scan.stringTail literal.quoteByte (bytesOf rest))
    (literal.source front behind mode).OneLiteral (width front) finish ∧
      (literal.source front behind mode).ReadsCode finish depths := by
  obtain ⟨hquote, hascii, hencode⟩ := literal.quoteByte_spec
  -- Taken as letters, the elements hold no quote, no backslash and no line feed but after a
  -- backslash, which is all that the scan of a string asks.
  have hletters : ∀ c, .plain c ∈ whole.map Element.letter → c ∉ [literal.quote, '\x5c', '\n'] := by
    intro c hc
    obtain ⟨element, hmem, helement⟩ := List.mem_map.1 hc
    obtain rfl : element = .plain c := by
      cases element <;> cases helement
      rfl
    have hother := literal.plain c (hplain c hmem)
    simp only [List.mem_cons, not_or] at hother ⊢
    exact ⟨hother.1, hother.2.1, hother.2.2.2⟩
  have hrest : (literal.source front behind mode).bytes.toList.drop (width front) =
      literal.quoteByte :: (bytesOf (Element.text whole) ++ bytesOf rest) := by
    rw [bytes_source, ← length_bytesOf, List.drop_left, hchars, bytesOf_cons, hencode,
      bytesOf_append]
    rfl
  have htail := Scan.stringTail_letters hquote ⟨hascii, rfl⟩ hletters (bytesOf rest)
  rw [Element.text_letters hwhole] at htail
  refine hcode.literal hrest fun lead => ?_
  rw [← htail]
  rcases List.mem_pair.1 hquote with hbyte | hbyte
  · rw [hbyte]
    rfl
  · rw [hbyte]
    rfl

/-- A literal without a two-character line break behind a backslash is taken as a whole. -/
theorem scanned_whole (hcode : (literal.source front behind mode).ReadsCode (width front) depths)
    (hwhole : .continuation .carriageFeed ∉ literal.content) :
    let finish := width front + width literal.chars
    (literal.source front behind mode).OneLiteral (width front) finish ∧
      (literal.source front behind mode).ReadsCode finish depths := by
  obtain ⟨hquote, -, hencode⟩ := literal.quoteByte_spec
  have hchars : literal.chars ++ behind =
      literal.quote :: (Element.text literal.content ++ literal.quote :: behind) := by
    rw [chars, List.cons_append, List.append_assoc, List.singleton_append]
  have htail : Scan.stringTail literal.quoteByte (bytesOf (literal.quote :: behind)) = 1 := by
    rw [bytesOf_cons, hencode]
    exact Scan.stringTail_quote hquote _
  have hfinish : width front + width literal.chars =
      width front + 1 + (width (Element.text literal.content) + 1) := by
    rw [width_chars]
    omega
  have hto := literal.scanned_to hcode hchars (fun _ hc => hc) hwhole
  rw [htail] at hto
  rw [hfinish]
  exact hto

/-- The first two-character line break behind a backslash breaks a literal off: the scan takes the
carriage return with the backslash and stops in front of the line feed. -/
theorem scanned_to_break
    (hcode : (literal.source front behind mode).ReadsCode (width front) depths)
    {later : List Element}
    (hcontent : literal.content = whole ++ .continuation .carriageFeed :: later)
    (hwhole : .continuation .carriageFeed ∉ whole) :
    let finish := width front + (width (Element.text whole) + 3)
    (literal.source front behind mode).OneLiteral (width front) finish ∧
      (literal.source front behind mode).ReadsCode finish depths := by
  -- up to the line feed the elements read as if the line break were the carriage return alone
  have htext : Element.text (whole ++ [.continuation .carriage]) =
      Element.text whole ++ ['\x5c', '\r'] := List.flatMap_append
  have hchars : literal.chars ++ behind = literal.quote ::
      (Element.text (whole ++ [.continuation .carriage]) ++
        '\n' :: (Element.text later ++ literal.quote :: behind)) := by
    rw [chars, hcontent, htext, Element.text, List.flatMap_append, List.flatMap_cons]
    simp only [List.cons_append, List.append_assoc, List.nil_append]
    rfl
  have hplain : ∀ c, .plain c ∈ whole ++ [.continuation .carriage] →
      .plain c ∈ literal.content := by
    intro c hc
    rw [hcontent]
    rcases List.mem_append.1 hc with hc | hc
    · exact List.mem_append_left _ hc
    · simp at hc
  have htail : ∀ b, Scan.stringTail b (bytesOf ('\n' ::
      (Element.text later ++ literal.quote :: behind))) = 0 := by
    intro b
    show Scan.stringTail b (0x0A :: bytesOf _) = 0
    rw [Scan.stringTail.eq_def]
    rfl
  have hto := literal.scanned_to hcode hchars hplain (by simpa using hwhole)
  rw [htail, htext, width_append] at hto
  have hfinish : width front + (width (Element.text whole) + 3) =
      width front + 1 + (width (Element.text whole) + width ['\x5c', '\r'] + 0) := by
    show _ = width front + 1 + (width (Element.text whole) + 2 + 0)
    omega
  rw [hfinish]
  exact hto

variable (front behind mode) in
theorem width_front_le : width front ≤ (literal.source front behind mode).size := by
  rw [Source.size, ← Array.length_toList, bytes_source, List.length_append, length_bytesOf]
  exact Nat.le_add_right _ _

/-- A string literal that stands in code, in any text, is recorded as one literal, with code behind
it, if and only if it has no backslash in front of a carriage return and a line feed. Otherwise the
literal that is recorded ends between these two, and all that comes then is taken for code. -/
theorem string_is_one_literal_iff
    (houtside : ∀ trivia ∈ (literal.source front behind mode).trivia,
      trivia.start < width front → trivia.finish ≤ width front) :
    let source := literal.source front behind mode
    let finish := width front + width literal.chars
    ∃ depths, source.ReadsCode (width front) depths ∧
      (source.OneLiteral (width front) finish ∧ source.ReadsCode finish depths ↔
        .continuation .carriageFeed ∉ literal.content) ∧
      ∀ whole later, literal.content = whole ++ .continuation .carriageFeed :: later →
        .continuation .carriageFeed ∉ whole →
          let broken := width front + (width (Element.text whole) + 3)
          source.OneLiteral (width front) broken ∧ source.ReadsCode broken depths := by
  obtain ⟨depths, hcode⟩ := Source.readsCode_iff.2
    ⟨literal.width_front_le front behind mode, houtside⟩
  refine ⟨depths, hcode, ⟨fun hwhole hbroken => ?_, literal.scanned_whole hcode⟩,
    fun whole later hcontent hwhole => literal.scanned_to_break hcode hcontent hwhole⟩
  -- the literal that is recorded cannot end both behind the quote and in front of the line feed
  obtain ⟨whole, later, hcontent, hfirst⟩ := List.eq_append_cons_of_mem hbroken
  have hfinish := hwhole.1.unique (literal.scanned_to_break hcode hcontent hfirst).1
  rw [width_chars, hcontent, Element.text, List.flatMap_append, width_append,
    List.flatMap_cons, width_append] at hfinish
  have hbreak : width (Element.continuation .carriageFeed).chars = 3 := rfl
  rw [hbreak] at hfinish
  change _ = width front + (width (whole.flatMap Element.chars) + 3) at hfinish
  omega

/-- A literal of two lines in a file with two-character line breaks. -/
def twoLines : ScriptString where
  quote := '\x22'
  isQuote := .inr rfl
  content := [.plain 'a', .continuation .carriageFeed, .plain 'b']
  plain := by simp
  escape := by simp

/-- Behind `x = ` the literal goes from 4 up to 11, but one that goes up to 8 is recorded. -/
theorem twoLines_is_broken_off :
    let source := twoLines.source "x = ".toList [';'] .skipTrivia
    (∀ trivia ∈ source.trivia, trivia.start < 4 → trivia.finish ≤ 4) ∧
      ∃ depths, source.ReadsCode 4 depths ∧ source.OneLiteral 4 8 ∧ source.ReadsCode 8 depths ∧
        ¬(source.OneLiteral 4 11 ∧ source.ReadsCode 11 depths) := by
  intro source
  have houtside : ∀ trivia ∈ source.trivia, trivia.start < 4 → trivia.finish ≤ 4 := by
    decide +kernel
  obtain ⟨depths, hcode, hiff, hbroken⟩ := twoLines.string_is_one_literal_iff houtside
  obtain ⟨hrecorded, hbehind⟩ := hbroken [.plain 'a'] [.plain 'b'] rfl (by decide)
  exact ⟨houtside, depths, hcode, hrecorded, hbehind, fun h => hiff.1 h (by decide)⟩

end ScriptString

end Written

end Concretion
