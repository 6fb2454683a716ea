import TemplateIdl.Span

/-!
# Fault — text that is no token

- `LexFault`, why a stretch of text is no token
- `LexError`, a fault with its place, and its `message`
-/

namespace TemplateIdl

/-- Why a stretch of text is no token. -/
inductive LexFault where
  /-- No token begins with the character. -/
  | unexpectedChar (ch : Char)
  /-- A quoted text lacks its closing quote. -/
  | unterminatedString
  /-- A block comment lacks its end. -/
  | unterminatedComment
  /-- An include directive names no path. -/
  | malformedInclude
deriving DecidableEq

/-- A fault and the text that it concerns. -/
structure LexError where
  fault : LexFault
  span : Span
deriving DecidableEq

/-- What is wrong, without the place. -/
def LexFault.text : LexFault → String
  | .unexpectedChar ch => "unexpected character '" ++ ch.toString ++ "'"
  | .unterminatedString => "unterminated string"
  | .unterminatedComment => "unterminated comment"
  | .malformedInclude => "malformed include directive"

/-- The message for a reader. -/
def LexError.message (e : LexError) : String :=
  e.fault.text ++ " at " ++ e.span.text

end TemplateIdl
