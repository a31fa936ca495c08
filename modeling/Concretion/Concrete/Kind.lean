import Concretion.Concrete.Symbol

/-!
# Kinds of concrete nodes

- `NodeKind`: the kinds, each with the punctuation and keywords that nodes of the kind own.
- `NodeKind.name`: the name a kind is printed by.
- `NodeKind.isPlaceholder`, `NodeKind.arity?`: placeholders, and the kinds with a fixed number of
  children.
- `NodeKind.symbols`: the symbols a kind owns, in the order of the text.
-/

namespace Concretion

/-- The kinds of concrete nodes. -/
inductive NodeKind where
  | root
  -- placeholders
  /-- Stands for a clause that is absent from a node with a fixed number of children. -/
  | empty
  /-- Stands for an element left out of an array. -/
  | elision
  -- literals and names
  | identifier (name : Symbol)
  | number (value : Symbol)
  | string (value : Symbol)
  | regex (value : Symbol)
  | trueLiteral (value : Symbol)
  | falseLiteral (value : Symbol)
  | nullLiteral (value : Symbol)
  | array (lbracket rbracket : Symbol)
  | object (lbrace rbrace : Symbol)
  /-- A key and its value, or a single word that is both. -/
  | nameValuePair (colon : Option Symbol)
  /-- A key in brackets. -/
  | computedName
  | getter
  | setter
  -- functions and classes
  | function (isStatic : Bool)
  | arrowFunction
  | generatorFunction (isStatic : Bool)
  | parameters (lparen rparen : Option Symbol)
  | restElement (ellipsis : Option Symbol)
  | spreadElement (ellipsis : Symbol)
  | classDefinition
  -- declarations
  | var (keyword : Symbol)
  /-- A name and its value. -/
  | declaration (equal : Option Symbol)
  | importStatement (keyword path : Symbol)
  | importSpecifier (star : Option Symbol)
  | exportStatement (keyword : Option Symbol) (isDefault : Bool) (path : Option Symbol)
  -- statements
  | statements (lbrace rbrace : Option Symbol)
  | emptyStatement
  /-- The children are initialisation, test, update and body. -/
  | forLoop (lparen semi1 semi2 rparen : Symbol)
  | forIn (lparen keyword rparen : Symbol)
  | forOf (lparen keyword rparen : Symbol)
  | ifElse (lparen rparen : Symbol)
  | whileLoop (lparen rparen : Symbol)
  | doLoop (lparen rparen : Symbol)
  | withScope (lparen rparen : Symbol)
  | switch (lparen rparen lbrace rbrace : Symbol)
  | caseClause (colon : Symbol)
  | defaultClause (colon : Symbol)
  /-- The children are the body, the `catch` clause and the `finally` clause. -/
  | tryCatch
  | catchClause
  | finallyClause (keyword : Symbol)
  | throwStatement
  | returnStatement
  | breakStatement (label : Option Symbol)
  | continueStatement (label : Option Symbol)
  | labelled (colon : Symbol)
  -- expressions
  | invoke
  | arguments (lparen rparen : Symbol)
  | construct (keyword : Symbol)
  | getProperty (dot : Symbol)
  | getElement (lbracket rbracket : Symbol)
  | conditional (question colon : Symbol)
  | assignment (operator : Symbol)
  | binaryArithmetic (operator : Symbol)
  | binaryBoolean (operator : Symbol)
  | comma (operator : Symbol)
  | preUnary (operator : Symbol)
  | postUnary (operator : Symbol)
  | yield (keyword : Symbol)
  /-- An operand that was written in parentheses. -/
  | group
  deriving DecidableEq, Repr, Inhabited

namespace NodeKind

/-- The name a kind is printed by. -/
def name : NodeKind → String
  | root => "ParseRoot"
  | empty => "Empty"
  | elision => "Elision"
  | identifier _ => "Identifier"
  | number _ => "Number"
  | string _ => "String"
  | regex _ => "Regex"
  | trueLiteral _ => "True"
  | falseLiteral _ => "False"
  | nullLiteral _ => "Null"
  | array _ _ => "Array"
  | object _ _ => "Object"
  | nameValuePair _ => "NameValuePair"
  | computedName => "ComputedPropertyName"
  | getter => "Getter"
  | setter => "Setter"
  | function _ => "Function"
  | arrowFunction => "ArrowFunction"
  | generatorFunction _ => "GeneratorFunction"
  | parameters _ _ => "Parameters"
  | restElement _ => "RestElement"
  | spreadElement _ => "SpreadElement"
  | classDefinition => "Class"
  | var _ => "Var"
  | declaration _ => "Declaration"
  | importStatement _ _ => "Import"
  | importSpecifier _ => "ImportSpecifier"
  | exportStatement _ _ _ => "Export"
  | statements _ _ => "Statements"
  | emptyStatement => "EmptyStatement"
  | forLoop _ _ _ _ => "For"
  | forIn _ _ _ => "ForIn"
  | forOf _ _ _ => "ForOf"
  | ifElse _ _ => "If"
  | whileLoop _ _ => "While"
  | doLoop _ _ => "Do"
  | withScope _ _ => "With"
  | switch _ _ _ _ => "Switch"
  | caseClause _ => "Case"
  | defaultClause _ => "Default"
  | tryCatch => "Try"
  | catchClause => "Catch"
  | finallyClause _ => "Finally"
  | throwStatement => "Throw"
  | returnStatement => "Return"
  | breakStatement _ => "Break"
  | continueStatement _ => "Continue"
  | labelled _ => "Labelled"
  | invoke => "Invoke"
  | arguments _ _ => "Arguments"
  | construct _ => "Construct"
  | getProperty _ => "GetProperty"
  | getElement _ _ => "GetElement"
  | conditional _ _ => "Conditional"
  | assignment _ => "Assignment"
  | binaryArithmetic _ => "BinaryArithmetic"
  | binaryBoolean _ => "BinaryBoolean"
  | comma _ => "Comma"
  | preUnary _ => "PreUnary"
  | postUnary _ => "PostUnary"
  | yield _ => "Yield"
  | group => "Group"

/-- Placeholders stand for absent parts and cover a single offset. -/
def isPlaceholder : NodeKind → Bool
  | empty | elision => true
  | _ => false

/-- The number of children of a node, for the kinds that fix it. -/
def arity? : NodeKind → Option Nat
  | forLoop .. => some 4
  | forIn .. | forOf .. | ifElse .. | tryCatch => some 3
  | declaration _ => some 2
  | _ => none

/-- The symbols that nodes of a kind own, in the order of the text. -/
def symbols : NodeKind → List Symbol
  | root | empty | elision | computedName | getter | setter | function _ | arrowFunction
  | generatorFunction _ | classDefinition | emptyStatement | tryCatch | catchClause
  | throwStatement | returnStatement | invoke | group => []
  | identifier symbol | number symbol | string symbol | regex symbol | trueLiteral symbol
  | falseLiteral symbol | nullLiteral symbol | spreadElement symbol | var symbol
  | caseClause symbol | defaultClause symbol | finallyClause symbol | labelled symbol
  | construct symbol | getProperty symbol | assignment symbol | binaryArithmetic symbol
  | binaryBoolean symbol | comma symbol | preUnary symbol | postUnary symbol
  | yield symbol => [symbol]
  | nameValuePair symbol | restElement symbol | declaration symbol | importSpecifier symbol
  | breakStatement symbol | continueStatement symbol => symbol.toList
  | array opening closing | object opening closing | importStatement opening closing
  | ifElse opening closing | whileLoop opening closing | doLoop opening closing
  | withScope opening closing | arguments opening closing | getElement opening closing
  | conditional opening closing => [opening, closing]
  | parameters opening closing | statements opening closing
  | exportStatement opening _ closing => opening.toList ++ closing.toList
  | forIn lparen keyword rparen | forOf lparen keyword rparen => [lparen, keyword, rparen]
  | forLoop lparen semi1 semi2 rparen => [lparen, semi1, semi2, rparen]
  | switch lparen rparen lbrace rbrace => [lparen, rparen, lbrace, rbrace]

end NodeKind

end Concretion
