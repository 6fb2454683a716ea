import TemplateIdl.Diagnostic.Expansion
import TemplateIdl.Diagnostic.Syntax

/-!
# Failures — any error in the treatment of a file

- `Failure`, an error of one of the three stages, with its `message` and place
-/

namespace TemplateIdl

/-- Any error in the treatment of an interface file. -/
inductive Failure where
  | lex (error : LexError)
  | parse (errors : List ParseError)
  | expansion (error : ExpansionError)
deriving DecidableEq

namespace Failure

/-- The message of the error inside. -/
def message : Failure → String
  | .lex e => e.message
  | .parse es => ParseError.textOf es
  | .expansion e => e.message

/-- The place of the first error inside. -/
def span? : Failure → Option Span
  | .lex e => some e.span
  | .parse es => es.head?.map ParseError.span
  | .expansion e => some e.span

/-- Whether text was no token. -/
def isLex : Failure → Bool
  | .lex _ => true
  | _ => false

/-- Whether the text did not parse. -/
def isParse : Failure → Bool
  | .parse _ => true
  | _ => false

/-- Whether a template could not be expanded. -/
def isExpansion : Failure → Bool
  | .expansion _ => true
  | _ => false

end Failure

end TemplateIdl
