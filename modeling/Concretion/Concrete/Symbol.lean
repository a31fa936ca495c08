import Concretion.Span

/-!
# Located symbols

A `Token` is a sort of token with its text, as it is looked for in a source text. A `Symbol` is a
token found, with the span it takes. `TokenKind.isLiteral` tells the tokens with a text of their
own (names and literals) from keywords and punctuation, and `TokenKind.name` gives the name that
each sort goes by.
-/

namespace Concretion

/-- The sorts of tokens. -/
inductive TokenKind where
  | leftParen
  | rightParen
  | leftBrace
  | rightBrace
  | leftBracket
  | rightBracket
  | semicolon
  | colon
  | comma
  | dot
  | question
  | equal
  | ellipsis
  | star
  /-- The operators of expressions, other than words. -/
  | operator
  | keyword
  | identifier
  | number
  | string
  | regex
  | trueLiteral
  | falseLiteral
  | nullLiteral
  deriving DecidableEq, Repr, Inhabited

namespace TokenKind

/-- Names and literals. -/
def isLiteral : TokenKind → Bool
  | identifier | number | string | regex | trueLiteral | falseLiteral | nullLiteral => true
  | _ => false

/-- All sorts of tokens. -/
def all : List TokenKind :=
  [leftParen, rightParen, leftBrace, rightBrace, leftBracket, rightBracket, semicolon, colon,
   comma, dot, question, equal, ellipsis, star, operator, keyword, identifier, number, string,
   regex, trueLiteral, falseLiteral, nullLiteral]

/-- The name of a sort of token. -/
def name : TokenKind → String
  | leftParen => "LParen"
  | rightParen => "RParen"
  | leftBrace => "LBrace"
  | rightBrace => "RBrace"
  | leftBracket => "LBracket"
  | rightBracket => "RBracket"
  | semicolon => "Semicolon"
  | colon => "Colon"
  | comma => "Comma"
  | dot => "Dot"
  | question => "Question"
  | equal => "Equal"
  | ellipsis => "Ellipsis"
  | star => "Star"
  | operator => "Operator"
  | keyword => "Keyword"
  | identifier => "Identifier"
  | number => "Number"
  | string => "String"
  | regex => "Regex"
  | trueLiteral => "True"
  | falseLiteral => "False"
  | nullLiteral => "Null"

/-- The sort of token with the given name. -/
def ofName? (name : String) : Option TokenKind := all.find? (·.name == name)

end TokenKind

/-- A token as it is looked for: its sort and its text. -/
structure Token where
  kind : TokenKind
  text : String
  deriving DecidableEq, Repr, Inhabited

namespace Token

def leftParen : Token := ⟨.leftParen, "("⟩
def rightParen : Token := ⟨.rightParen, ")"⟩
def leftBrace : Token := ⟨.leftBrace, "\x7b"⟩
def rightBrace : Token := ⟨.rightBrace, "\x7d"⟩
def leftBracket : Token := ⟨.leftBracket, "["⟩
def rightBracket : Token := ⟨.rightBracket, "]"⟩
def semicolon : Token := ⟨.semicolon, ";"⟩
def colon : Token := ⟨.colon, ":"⟩
def dot : Token := ⟨.dot, "."⟩
def question : Token := ⟨.question, "?"⟩
def equal : Token := ⟨.equal, "="⟩
def ellipsis : Token := ⟨.ellipsis, "..."⟩
def star : Token := ⟨.star, "*"⟩

/-- A keyword. -/
def keyword (word : String) : Token := ⟨.keyword, word⟩

/-- The number of bytes a token takes. -/
def length (token : Token) : Nat := token.text.utf8ByteSize

end Token

/-- A token located in the source text. -/
structure Symbol where
  kind : TokenKind
  span : Span
  /-- The text of the token. Strings have their quotes. -/
  value : String
  deriving DecidableEq, Repr, Inhabited

/-- A symbol is written with its text and its place. -/
def Symbol.text (symbol : Symbol) : String := s!"{symbol.value}@{symbol.span.text}"

end Concretion
