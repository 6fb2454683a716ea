import TemplateIdl.Grammar.Default
import TemplateIdl.Grammar.Type

/-!
# Grammar of arguments

- `Parse.argument`, one argument with its default
- `Parse.arguments`, the arguments of a callable in parentheses
-/

namespace TemplateIdl

namespace Parse

/-- One argument. -/
def argument : Parse Argument := do
  let type ← typeUse
  let name ← expectIdentifier
  let default? ← optionalDefault
  pure ⟨type, name, default?⟩

/-- Arguments in parentheses. -/
def arguments : Parse (List Argument) := do
  let opening ← peek
  if opening.kind = .leftParen then
    discard advance
    if ← eat .rightParen then pure []
    else
      let args ← commaSeparated argument
      discard (expect .rightParen)
      pure args
  else
    fail .expectedParameters opening.span
      ("expected '(' to start parameter list, found " ++ opening.lexeme)

end Parse

end TemplateIdl
