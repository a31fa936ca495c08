import Concretion.Text.Bytes

/-!
# Scanning for comments and literals

A token search must not match inside a comment or inside a string, template or regular expression
literal. One pass over the bytes finds these ranges; they are called *trivia*.

- `Trivia`: one such range with its kind.
- `stringTail`, `blockCommentTail`, `lineCommentTail`, `regexTail`, `templateTail`: how many bytes
  a comment or literal goes on for after it has been opened.
- `allowsRegex`: whether a slash starts a regular expression, judged by the code before it. This is
  an approximation: the slash of `a++ / b` is taken for one.
- `scan`: the trivia of a text, in order.

A scan step reads at least one byte, so the scan ends for every text, well-formed or not. What a
step needs to know of the text before it is kept as the list of bytes already read, latest first.
-/

namespace Concretion

/-- What a range of trivia holds. -/
inductive TriviaKind where
  | comment
  /-- A string or regular expression literal, or a stretch of template text. -/
  | literal
  deriving DecidableEq, Repr, Inhabited

/-- A half-open range of the text that token searches skip. -/
structure Trivia where
  kind : TriviaKind
  start : Nat
  finish : Nat
  deriving DecidableEq, Repr, Inhabited

namespace Scan

open Text

/-! ## Comments -/

/-- A line comment goes on to just before the line feed. -/
def lineCommentTail (rest : List UInt8) : Nat := (rest.takeWhile (· != 0x0A)).length

/-- A block comment goes on through the first `*/`, or to the end of the text. -/
def blockCommentTail : List UInt8 → Nat
  | [] => 0
  | b :: rest =>
    if b == 0x2A && rest.head? == some 0x2F then 2 else blockCommentTail rest + 1

/-! ## Literals -/

/-- A string goes on through its closing quote. A backslash takes the next byte with it. A string
that is not closed ends before the line feed, or with the text. -/
def stringTail (quote : UInt8) : List UInt8 → Nat
  | [] => 0
  | b :: rest =>
    if b == 0x5C then
      match rest with
      | [] => 1
      | _ :: rest => stringTail quote rest + 2
    else if b == 0x0A then 0
    else if b == quote then 1
    else stringTail quote rest + 1

/-- A regular expression goes on through the first slash outside a character class, and through
the flags after it. There is none if the line or the text ends before that slash. -/
def regexTail (inClass : Bool) : List UInt8 → Option Nat
  | [] => none
  | b :: rest =>
    if b == 0x5C then
      match rest with
      | [] => none
      | _ :: rest => (regexTail inClass rest).map (· + 2)
    else if b == 0x0A then none
    else if b == 0x5B then (regexTail true rest).map (· + 1)
    else if b == 0x5D then (regexTail false rest).map (· + 1)
    else if b == 0x2F && !inClass then some ((rest.takeWhile isWordByte).length + 1)
    else (regexTail inClass rest).map (· + 1)

/-- What ends a stretch of template text. -/
inductive TemplateEnd where
  /-- The closing backtick. -/
  | closed
  /-- The opening of a substitution. -/
  | substitution
  /-- The end of the text. -/
  | unfinished
  deriving DecidableEq, Repr, Inhabited

/-- Template text goes on through the closing backtick or through the opening of the next
substitution. A backslash takes the next byte with it. -/
def templateTail : List UInt8 → Nat × TemplateEnd
  | [] => (0, .unfinished)
  | b :: rest =>
    if b == 0x5C then
      match rest with
      | [] => (1, .unfinished)
      | _ :: rest =>
        let (length, ending) := templateTail rest
        (length + 2, ending)
    else if b == 0x60 then (1, .closed)
    else if b == 0x24 && rest.head? == some 0x7B then (2, .substitution)
    else
      let (length, ending) := templateTail rest
      (length + 1, ending)

/-! ## Slashes -/

/-- The words after which a slash starts a regular expression. -/
def operandWords : List String :=
  ["return", "typeof", "instanceof", "in", "of", "new", "delete", "void", "throw", "case", "do",
   "else", "yield", "await"]

/-- The punctuation after which a slash starts a regular expression. -/
def opensOperand (b : UInt8) : Bool := (pattern "(,=:[!&|?\x7b\x7d;+-*%<>~^").contains b

/-- Does a slash start a regular expression? It does at the beginning, after punctuation that
an operand follows, and after a word that an operand follows. `lead` holds the bytes up to the
last significant one, latest first; it is empty at the beginning. -/
def allowsRegex (lead : List UInt8) : Bool :=
  match lead with
  | [] => true
  | b :: _ =>
    opensOperand b ||
      (isWordByte b &&
        (operandWords.map pattern).contains (lead.takeWhile isWordByte).reverse)

/-! ## Steps -/

/-- What one step reads, after its first byte. -/
structure Step where
  /-- How many further bytes are read. -/
  extra : Nat
  /-- The kind of range found, if any. -/
  found : Option TriviaKind
  /-- Whether a later slash is judged by the last byte read. -/
  significant : Bool
  /-- The number of open braces inside each open substitution, innermost first. -/
  depths : List Nat
  deriving DecidableEq, Repr

/-- A single byte of code. -/
def Step.code (depths : List Nat) : Step := ⟨0, none, true, depths⟩

/-- A comment of which `extra` bytes follow the first. -/
def Step.comment (extra : Nat) (depths : List Nat) : Step := ⟨extra, some .comment, false, depths⟩

/-- A literal of which `extra` bytes follow the first. -/
def Step.literal (extra : Nat) (depths : List Nat) : Step := ⟨extra, some .literal, true, depths⟩

/-- Template text after its first byte: a substitution that it opens starts without braces. -/
def Step.template (rest : List UInt8) (depths : List Nat) : Step :=
  match templateTail rest with
  | (extra, .substitution) => .literal extra (0 :: depths)
  | (extra, _) => .literal extra depths

/-- The step taken at byte `b`, given the bytes before it and those after it. A closing brace
without an open brace in the innermost substitution ends that substitution, and template text goes
on. -/
def step (lead : List UInt8) (depths : List Nat) (b : UInt8) (rest : List UInt8) : Step :=
  if b == 0x2F && rest.head? == some 0x2F then .comment (lineCommentTail rest) depths
  else if b == 0x2F && rest.head? == some 0x2A then
    .comment (blockCommentTail rest.tail + 1) depths
  else if b == 0x2F && allowsRegex lead then
    match regexTail false rest with
    | some extra => .literal extra depths
    | none => .code depths
  else if b == 0x27 || b == 0x22 then .literal (stringTail b rest) depths
  else if b == 0x60 then .template rest depths
  else if b == 0x7B then
    match depths with
    | [] => .code []
    | depth :: outer => .code ((depth + 1) :: outer)
  else if b == 0x7D then
    match depths with
    | [] => .code []
    | 0 :: outer => .template rest outer
    | (depth + 1) :: outer => .code (depth :: outer)
  else if isBlankByte b then ⟨0, none, false, depths⟩
  else .code depths

/-- The trivia of the remaining bytes. `offset` is the number of bytes `before`, which are given
latest first. -/
def scanFrom (offset : Nat) (before lead : List UInt8) (depths : List Nat) :
    List UInt8 → List Trivia
  | [] => []
  | b :: rest =>
    let s := step lead depths b rest
    let finish := offset + 1 + s.extra
    let read := (rest.take s.extra).reverse ++ b :: before
    let later := scanFrom finish read (if s.significant then read else lead) s.depths
      (rest.drop s.extra)
    match s.found with
    | some kind => ⟨kind, offset, finish⟩ :: later
    | none => later
termination_by rest => rest.length
decreasing_by simp only [List.length_drop, List.length_cons]; omega

/-- The comments and literals of a text, in order. -/
def scan (bytes : List UInt8) : List Trivia := scanFrom 0 [] [] [] bytes

end Scan

end Concretion
