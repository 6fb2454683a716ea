import TemplateIdl.Decl.Free
import TemplateIdl.Grammar.Parse

/-!
# Grammar of enumerations

- `Parse.enumerators`, the enumerators, whose values are skipped
- `Parse.enumeration`, an enumeration
-/

namespace TemplateIdl

namespace Parse

/-- Whether a token may belong to the value of an enumerator. -/
def isValueToken (t : Token) : Bool :=
  t.kind != .comma && t.kind != .rightBrace && t.kind != .eof

/-- Skips the value of an enumerator. -/
def skipEnumeratorValue : Parse Unit := fun s =>
  let n := (s.ahead.takeWhile isValueToken).length
  if n = 0 then
    .error ⟨.invalidSyntax, s.peek.span, "expected enumerator value after '='"⟩ s
  else .ok () (s.skip n)

/-- The enumerators up to the closing brace. A comma may follow the last one. -/
def enumerators : Parse (List String) :=
  fix (fun again (_ : Unit) => do
    if ← check .rightBrace then pure []
    else
      let name ← expectIdentifier
      if ← eat .equal then skipEnumeratorValue
      if ← eat .comma then
        let names ← again ()
        pure (name :: names)
      else pure [name]) ()

/-- An enumeration in the namespace `namespaces`. -/
def enumeration (namespaces : List String) : Parse EnumDecl := do
  let start ← expect .kwEnum
  let isScoped ← if ← eat .kwClass then pure true else eat .kwStruct
  let name ← expectIdentifier
  discard (expect .leftBrace)
  let names ← enumerators
  discard (expect .rightBrace)
  discard (expect .semicolon)
  let span ← spanFrom start.span
  pure ⟨name, names, isScoped, namespaces, span⟩

end Parse

end TemplateIdl
