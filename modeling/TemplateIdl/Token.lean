import TemplateIdl.Span

/-!
# Token — the words of an interface file

- `Kind`, what a token is, with its fixed `spelling` if it has one and its `description` in
  messages
- `Kind.keywords` and `Kind.symbols`, the words and signs with a fixed spelling
- `keyword?`, the keyword that a word is
- `Token`, a token with its text, the blank text before it and its place
-/

namespace TemplateIdl

/-- What a token is. -/
inductive Kind where
  | intLiteral | floatLiteral | stringLiteral | identifier
  /-- A whole `#include` directive. -/
  | includeDirective
  | kwVoid | kwBool | kwChar
  /-- Names a type only before `char`. -/
  | kwUnsigned
  | kwInt | kwSizeT | kwDouble | kwFloat
  | kwClass
  /-- Only follows `enum`. -/
  | kwStruct
  | kwEnum | kwNamespace | kwTemplate | kwTypedef | kwVirtual | kwStatic | kwConst | kwOperator
  | plus | minus | star | slash | percent | caret | amp | pipe | atSign | equal
  | plusEqual | minusEqual | starEqual | slashEqual | percentEqual | caretEqual | ampEqual
  | pipeEqual
  | lessLess | lessLessEqual | greaterGreater | greaterGreaterEqual
  | equalEqual | bangEqual | less | lessEqual | greater | greaterEqual
  | leftParen | rightParen | leftBracket | rightBracket | leftBrace | rightBrace
  | semicolon | comma | colon | colonColon
  /-- Signs that only occur in default values, such as `.` and `->`. -/
  | punct
  | eof
  /-- Text that is no token. -/
  | error
deriving DecidableEq, Inhabited

namespace Kind

/-- The keywords that name a built-in type. -/
def basicTypes : List Kind :=
  [kwVoid, kwBool, kwChar, kwUnsigned, kwInt, kwSizeT, kwDouble, kwFloat]

/-- The keywords that introduce or modify a declaration. -/
def declarationWords : List Kind :=
  [kwClass, kwStruct, kwEnum, kwNamespace, kwTemplate, kwTypedef, kwVirtual, kwStatic, kwConst,
   kwOperator]

/-- All keywords. -/
def keywords : List Kind :=
  basicTypes ++ declarationWords

/-- Whether a token of this kind names a built-in type. -/
def isBasicType (k : Kind) : Bool := basicTypes.contains k

/-- Whether a token of this kind is a keyword. -/
def isKeyword (k : Kind) : Bool := keywords.contains k

/-- Whether a token of this kind is a literal. -/
def isLiteral : Kind → Bool
  | intLiteral | floatLiteral | stringLiteral => true
  | _ => false

/-- The text of every token of this kind, if there is only one. -/
def spelling : Kind → Option String
  | kwVoid => some "void"
  | kwBool => some "bool"
  | kwChar => some "char"
  | kwUnsigned => some "unsigned"
  | kwInt => some "int"
  | kwSizeT => some "size_t"
  | kwDouble => some "double"
  | kwFloat => some "float"
  | kwClass => some "class"
  | kwStruct => some "struct"
  | kwEnum => some "enum"
  | kwNamespace => some "namespace"
  | kwTemplate => some "template"
  | kwTypedef => some "typedef"
  | kwVirtual => some "virtual"
  | kwStatic => some "static"
  | kwConst => some "const"
  | kwOperator => some "operator"
  | plus => some "+"
  | minus => some "-"
  | star => some "*"
  | slash => some "/"
  | percent => some "%"
  | caret => some "^"
  | amp => some "&"
  | pipe => some "|"
  | atSign => some "@"
  | equal => some "="
  | plusEqual => some "+="
  | minusEqual => some "-="
  | starEqual => some "*="
  | slashEqual => some "/="
  | percentEqual => some "%="
  | caretEqual => some "^="
  | ampEqual => some "&="
  | pipeEqual => some "|="
  | lessLess => some "<<"
  | lessLessEqual => some "<<="
  | greaterGreater => some ">>"
  | greaterGreaterEqual => some ">>="
  | equalEqual => some "=="
  | bangEqual => some "!="
  | less => some "<"
  | lessEqual => some "<="
  | greater => some ">"
  | greaterEqual => some ">="
  | leftParen => some "("
  | rightParen => some ")"
  | leftBracket => some "["
  | rightBracket => some "]"
  | leftBrace => some "\x7b"
  | rightBrace => some "\x7d"
  | semicolon => some ";"
  | comma => some ","
  | colon => some ":"
  | colonColon => some "::"
  | _ => none

/-- How messages speak of a token of this kind. -/
def description (k : Kind) : String :=
  match k.spelling with
  | some text => "'" ++ text ++ "'"
  | none =>
    match k with
    | intLiteral => "integer literal"
    | floatLiteral => "float literal"
    | stringLiteral => "string literal"
    | identifier => "identifier"
    | includeDirective => "include directive"
    | punct => "punctuation"
    | eof => "end of file"
    | _ => "error"

/-- Every sign that is a token, with its kind; longer signs stand first, so that the first one
that begins a text is the longest. -/
def symbols : List (List Char × Kind) :=
  [(['<', '<', '='], lessLessEqual), (['>', '>', '='], greaterGreaterEqual),
   (['<', '<'], lessLess), (['>', '>'], greaterGreater), (['<', '='], lessEqual),
   (['>', '='], greaterEqual), (['=', '='], equalEqual), (['!', '='], bangEqual),
   (['+', '='], plusEqual), (['-', '='], minusEqual), (['*', '='], starEqual),
   (['/', '='], slashEqual), (['%', '='], percentEqual), (['^', '='], caretEqual),
   (['&', '='], ampEqual), (['|', '='], pipeEqual), ([':', ':'], colonColon),
   (['&', '&'], punct), (['|', '|'], punct), (['+', '+'], punct), (['-', '-'], punct),
   (['-', '>'], punct),
   (['('], leftParen), ([')'], rightParen), (['['], leftBracket), ([']'], rightBracket),
   (['\x7b'], leftBrace), (['\x7d'], rightBrace), ([';'], semicolon), ([','], comma),
   (['@'], atSign), ([':'], colon), (['<'], less), (['>'], greater), (['+'], plus), (['-'], minus),
   (['*'], star), (['/'], slash), (['%'], percent), (['^'], caret), (['&'], amp), (['|'], pipe),
   (['='], equal), (['!'], punct), (['.'], punct), (['~'], punct), (['?'], punct)]

end Kind

/-- The keyword that a word is. Words with a meaning in some places only, such as `pair`, `std`
and `This`, are no keywords. -/
def keyword? (word : String) : Option Kind :=
  Kind.keywords.find? fun k => k.spelling == some word

/-- A token of a source text. -/
structure Token where
  kind : Kind
  /-- Its text; empty for the end of the file and for text that is no token. -/
  lexeme : String
  /-- The blanks and comments before it, back to the token before. -/
  gap : String
  /-- Where it stands. -/
  span : Span
deriving DecidableEq, Inhabited

end TemplateIdl
