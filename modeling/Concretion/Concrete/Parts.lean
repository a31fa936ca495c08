import Concretion.Concrete.Kind

/-!
# Kinds by name and parts

A kind of node can be taken apart into its name and labelled parts, which is the form in which
trees are exchanged with others.

- `NodeKind.Part`: what a part may be.
- `NodeKind.parts`: the parts of a kind.
- `NodeKind.ofParts?`: the kind with a given name and given parts. Nothing is lost on the way
  (`ofParts?_parts`).
-/

namespace Concretion

namespace NodeKind

/-- A part of a kind. -/
inductive Part where
  | symbol (symbol : Symbol)
  /-- A symbol that the kind may do without. -/
  | absent
  | flag (value : Bool)
  deriving DecidableEq, Repr, Inhabited

/-- The part for a symbol that a kind may do without. -/
def Part.ofOption : Option Symbol → Part
  | some located => .symbol located
  | none => .absent

/-- The labelled parts of a kind. -/
def parts : NodeKind → List (String × Part)
  | root | empty | elision | computedName | getter | setter | arrowFunction | classDefinition
  | emptyStatement | tryCatch | catchClause | throwStatement | returnStatement | invoke
  | group => []
  | identifier name => [("name", .symbol name)]
  | number value | string value | regex value | trueLiteral value | falseLiteral value
  | nullLiteral value => [("value", .symbol value)]
  | array lbracket rbracket | getElement lbracket rbracket =>
    [("lbracket", .symbol lbracket), ("rbracket", .symbol rbracket)]
  | object lbrace rbrace => [("lbrace", .symbol lbrace), ("rbrace", .symbol rbrace)]
  | nameValuePair colon => [("colon", .ofOption colon)]
  | function isStatic | generatorFunction isStatic => [("is_static", .flag isStatic)]
  | parameters lparen rparen => [("lparen", .ofOption lparen), ("rparen", .ofOption rparen)]
  | restElement ellipsis => [("ellipsis", .ofOption ellipsis)]
  | spreadElement ellipsis => [("ellipsis", .symbol ellipsis)]
  | var keyword | finallyClause keyword | construct keyword
  | yield keyword => [("keyword", .symbol keyword)]
  | declaration equal => [("equal", .ofOption equal)]
  | importStatement keyword path => [("keyword", .symbol keyword), ("path", .symbol path)]
  | importSpecifier star => [("star", .ofOption star)]
  | exportStatement keyword isDefault path =>
    [("keyword", .ofOption keyword), ("is_default", .flag isDefault), ("path", .ofOption path)]
  | statements lbrace rbrace => [("lbrace", .ofOption lbrace), ("rbrace", .ofOption rbrace)]
  | forLoop lparen semi1 semi2 rparen =>
    [("lparen", .symbol lparen), ("semi1", .symbol semi1), ("semi2", .symbol semi2),
     ("rparen", .symbol rparen)]
  | forIn lparen keyword rparen | forOf lparen keyword rparen =>
    [("lparen", .symbol lparen), ("keyword", .symbol keyword), ("rparen", .symbol rparen)]
  | ifElse lparen rparen | whileLoop lparen rparen | doLoop lparen rparen
  | withScope lparen rparen | arguments lparen rparen =>
    [("lparen", .symbol lparen), ("rparen", .symbol rparen)]
  | switch lparen rparen lbrace rbrace =>
    [("lparen", .symbol lparen), ("rparen", .symbol rparen), ("lbrace", .symbol lbrace),
     ("rbrace", .symbol rbrace)]
  | caseClause colon | defaultClause colon | labelled colon => [("colon", .symbol colon)]
  | breakStatement label | continueStatement label => [("label", .ofOption label)]
  | getProperty dot => [("dot", .symbol dot)]
  | conditional question colon => [("question", .symbol question), ("colon", .symbol colon)]
  | assignment operator | binaryArithmetic operator | binaryBoolean operator | comma operator
  | preUnary operator | postUnary operator => [("operator", .symbol operator)]

/-! ## Putting parts together -/

/-- The symbol with the given label. -/
def symbolOf? (parts : List (String × Part)) (label : String) : Option Symbol :=
  match parts.lookup label with
  | some (.symbol symbol) => some symbol
  | _ => none

/-- The symbol with the given label, or `none` if it is absent. Anything but a symbol is refused. -/
def optionOf? (parts : List (String × Part)) (label : String) : Option (Option Symbol) :=
  match parts.lookup label with
  | some (.symbol symbol) => some (some symbol)
  | some .absent | none => some none
  | some (.flag _) => none

/-- The flag with the given label, which is not set if it is missing. -/
def flagOf? (parts : List (String × Part)) (label : String) : Option Bool :=
  match parts.lookup label with
  | some (.flag value) => some value
  | some .absent | none => some false
  | some (.symbol _) => none

/-- The kind with the given name and parts. Parts that the kind does not have are ignored. -/
def ofParts? (name : String) (parts : List (String × Part)) : Option NodeKind := do
  let symbol := symbolOf? parts
  let option := optionOf? parts
  let flag := flagOf? parts
  match name with
  | "ParseRoot" => some root
  | "Empty" => some empty
  | "Elision" => some elision
  | "Identifier" => identifier (← symbol "name")
  | "Number" => number (← symbol "value")
  | "String" => string (← symbol "value")
  | "Regex" => regex (← symbol "value")
  | "True" => trueLiteral (← symbol "value")
  | "False" => falseLiteral (← symbol "value")
  | "Null" => nullLiteral (← symbol "value")
  | "Array" => array (← symbol "lbracket") (← symbol "rbracket")
  | "Object" => object (← symbol "lbrace") (← symbol "rbrace")
  | "NameValuePair" => nameValuePair (← option "colon")
  | "ComputedPropertyName" => some computedName
  | "Getter" => some getter
  | "Setter" => some setter
  | "Function" => function (← flag "is_static")
  | "ArrowFunction" => some arrowFunction
  | "GeneratorFunction" => generatorFunction (← flag "is_static")
  | "Parameters" => parameters (← option "lparen") (← option "rparen")
  | "RestElement" => restElement (← option "ellipsis")
  | "SpreadElement" => spreadElement (← symbol "ellipsis")
  | "Class" => some classDefinition
  | "Var" => var (← symbol "keyword")
  | "Declaration" => declaration (← option "equal")
  | "Import" => importStatement (← symbol "keyword") (← symbol "path")
  | "ImportSpecifier" => importSpecifier (← option "star")
  | "Export" => exportStatement (← option "keyword") (← flag "is_default") (← option "path")
  | "Statements" => statements (← option "lbrace") (← option "rbrace")
  | "EmptyStatement" => some emptyStatement
  | "For" =>
    forLoop (← symbol "lparen") (← symbol "semi1") (← symbol "semi2") (← symbol "rparen")
  | "ForIn" => forIn (← symbol "lparen") (← symbol "keyword") (← symbol "rparen")
  | "ForOf" => forOf (← symbol "lparen") (← symbol "keyword") (← symbol "rparen")
  | "If" => ifElse (← symbol "lparen") (← symbol "rparen")
  | "While" => whileLoop (← symbol "lparen") (← symbol "rparen")
  | "Do" => doLoop (← symbol "lparen") (← symbol "rparen")
  | "With" => withScope (← symbol "lparen") (← symbol "rparen")
  | "Switch" =>
    switch (← symbol "lparen") (← symbol "rparen") (← symbol "lbrace") (← symbol "rbrace")
  | "Case" => caseClause (← symbol "colon")
  | "Default" => defaultClause (← symbol "colon")
  | "Try" => some tryCatch
  | "Catch" => some catchClause
  | "Finally" => finallyClause (← symbol "keyword")
  | "Throw" => some throwStatement
  | "Return" => some returnStatement
  | "Break" => breakStatement (← option "label")
  | "Continue" => continueStatement (← option "label")
  | "Labelled" => labelled (← symbol "colon")
  | "Invoke" => some invoke
  | "Arguments" => arguments (← symbol "lparen") (← symbol "rparen")
  | "Construct" => construct (← symbol "keyword")
  | "GetProperty" => getProperty (← symbol "dot")
  | "GetElement" => getElement (← symbol "lbracket") (← symbol "rbracket")
  | "Conditional" => conditional (← symbol "question") (← symbol "colon")
  | "Assignment" => assignment (← symbol "operator")
  | "BinaryArithmetic" => binaryArithmetic (← symbol "operator")
  | "BinaryBoolean" => binaryBoolean (← symbol "operator")
  | "Comma" => comma (← symbol "operator")
  | "PreUnary" => preUnary (← symbol "operator")
  | "PostUnary" => postUnary (← symbol "operator")
  | "Yield" => yield (← symbol "keyword")
  | "Group" => some group
  | _ => none

/-- A kind is determined by its name and its parts. -/
theorem ofParts?_parts (kind : NodeKind) : ofParts? kind.name kind.parts = some kind := by
  cases kind with
  | nameValuePair symbol | restElement symbol | declaration symbol | importSpecifier symbol
  | breakStatement symbol | continueStatement symbol => cases symbol <;> rfl
  | parameters first second | statements first second => cases first <;> cases second <;> rfl
  | exportStatement first _ second => cases first <;> cases second <;> rfl
  | _ => rfl

end NodeKind

end Concretion
