import TemplateIdl.Text.Lines
import TemplateIdl.Token.Fault

/-!
# Syntax errors — what a parser reports

- `ParseErrorKind`, the categories of syntax errors
- `ParseError`, one error with its place and message, and the usual messages
- `ParseError.text` and `ParseError.textOf`, one line per error
- `ParseError.shown`, an error with its source line and a caret below it
-/

namespace TemplateIdl

/-- The categories of syntax errors. -/
inductive ParseErrorKind where
  | expectedToken | unexpectedToken | unexpectedEof
  | expectedType | invalidType | expectedTemplateArgs
  | expectedDeclaration | invalidDeclaration | expectedParameters | expectedClassMember
  | expectedIdentifier | expectedOperator
  | mismatchedDelimiter | invalidModifier | invalidSyntax
deriving DecidableEq, Inhabited

/-- The category in words. -/
def ParseErrorKind.text : ParseErrorKind → String
  | expectedToken => "expected token"
  | unexpectedToken => "unexpected token"
  | unexpectedEof => "unexpected end of file"
  | expectedType => "expected type"
  | invalidType => "invalid type"
  | expectedTemplateArgs => "expected template arguments"
  | expectedDeclaration => "expected declaration"
  | invalidDeclaration => "invalid declaration"
  | expectedParameters => "expected parameters"
  | expectedClassMember => "expected class member"
  | expectedIdentifier => "expected identifier"
  | expectedOperator => "expected operator"
  | mismatchedDelimiter => "mismatched delimiter"
  | invalidModifier => "invalid modifier"
  | invalidSyntax => "invalid syntax"

/-- A syntax error: its category, its place and what is wrong. -/
structure ParseError where
  kind : ParseErrorKind
  span : Span
  message : String
deriving DecidableEq, Inhabited

namespace ParseError

/-! ## The usual messages -/

/-- Something was expected and something else was found. -/
def expectedToken (span : Span) (expected found : String) : ParseError :=
  ⟨.expectedToken, span, "expected " ++ expected ++ ", found " ++ found⟩

/-- A token stands where none may stand. -/
def unexpectedToken (span : Span) (found : String) : ParseError :=
  ⟨.unexpectedToken, span, "unexpected token: " ++ found⟩

/-- The file ends too early. -/
def unexpectedEof (span : Span) : ParseError :=
  ⟨.unexpectedEof, span, "unexpected end of file"⟩

/-- An identifier was expected. -/
def expectedIdentifier (span : Span) (found : String) : ParseError :=
  ⟨.expectedIdentifier, span, "expected identifier, found " ++ found⟩

/-- A type was expected. -/
def expectedType (span : Span) (found : String) : ParseError :=
  ⟨.expectedType, span, "expected type, found " ++ found⟩

/-- Text that is no token, as a syntax error. -/
def ofLexError (e : LexError) : ParseError :=
  ⟨.invalidSyntax, e.span, "lexer error: " ++ e.message⟩

/-! ## Showing errors -/

/-- The error on one line. -/
def text (e : ParseError) : String :=
  e.kind.text ++ " at " ++ e.span.text ++ ": " ++ e.message

/-- Several errors, one line each. -/
def textOf (es : List ParseError) : String :=
  String.intercalate "\n" (es.map text)

/-- A line number, moved to the right in three columns. -/
def gutter (line : Nat) : List Char :=
  let digits := line.repr.toList
  List.replicate (3 - digits.length) ' ' ++ digits

/-- The caret below the first byte of an error, and a tail for its other bytes. -/
def pointer (len : Nat) : List Char :=
  '^' :: List.replicate (len - 1) '~'

/-- The error with its source line and a caret under the place, if the line exists. -/
def shown (e : ParseError) (source : String) : String :=
  let head := "Error at " ++ e.span.text ++ ": " ++ e.kind.text ++ "\n"
  let body := if e.message.isEmpty then "" else "  " ++ e.message ++ "\n"
  let excerpt :=
    match line? source.toList e.span.line with
    | some line =>
      "  |\n" ++ String.ofList (gutter e.span.line) ++ " | " ++ String.ofList line ++ "\n"
        ++ "  | " ++ String.ofList (List.replicate (e.span.col - 1) ' ')
        ++ String.ofList (pointer e.span.len) ++ "\n"
    | none => ""
  head ++ body ++ excerpt

end ParseError

end TemplateIdl
