import TemplateIdl.Decl.Signature
import TemplateIdl.Decl.Template
import TemplateIdl.Grammar.Parse

/-!
# Grammar of types

- `Parse.typeUse`, a type: `const`, a name and a sign, of which the name is required
- `Parse.typename`, the name: built in, or a path with template arguments
- `Parse.returnType`, a type or a pair of types
- `Parse.templateHeader`, the parameters of a template
- `TypeExpr.parse`, a text that is one type
-/

namespace TemplateIdl

namespace Parse

/-! ## Names -/

/-- An identifier where a type is expected. -/
def typeSegment : Parse String := fun s =>
  let t := s.peek
  if t.kind = .identifier then .ok t.lexeme s.advance
  else if t.kind = .eof then .error (.unexpectedEof t.span) s
  else .error (.expectedType t.span t.lexeme) s

/-- Whether `::` and an identifier follow. -/
def pathContinues (s : TokenStream) : Bool :=
  s.peek.kind == .colonColon && (s.nth 1).kind == .identifier

/-- A path of identifiers: the namespaces and the last one. -/
def path : Parse (List String × String) := do
  discard (eat .colonColon)
  let first ← typeSegment
  let rest ← manyWhile pathContinues (do discard advance; typeSegment)
  pure ((first :: rest).dropLast, rest.getLastD first)

/-- The name of a built-in type, of which `unsigned char` has two words. -/
def basicTypename : Parse Typename := do
  let t ← advance
  if t.kind = .kwUnsigned then
    discard (expect .kwChar)
    pure (.simple "unsigned char")
  else pure (.simple t.lexeme)

/-! ## Template arguments -/

/-- Whether a closing bracket follows. -/
def atTemplateClose : Parse Bool := fun s =>
  .ok (s.peek.kind == .greater || s.peek.kind == .greaterGreater) s

/-- A closing bracket. Of a `>>` the first half is read. -/
def templateClose : Parse Unit := do
  -- a shift is two closing brackets, of which the second one stays for the outer arguments
  modify TokenStream.splitShift
  if ← eat .greater then pure ()
  else
    let t ← peek
    fail .expectedToken t.span ("expected '>' to close template arguments, found " ++ t.lexeme)

/-- The brackets around at least one of the things that `item` reads. -/
def bracketed {α : Type} (whenEmpty : String) (item : Parse α) : Parse (List α) := do
  let opening ← expect .less
  if ← atTemplateClose then fail .expectedTemplateArgs opening.span whenEmpty
  else
    let items ← commaSeparated item
    templateClose
    pure items

/-- Template arguments, each of which `arg` reads. -/
def templateArgs (arg : Parse TypeExpr) : Parse (List TypeExpr) :=
  bracketed "template argument list is empty" arg

/-! ## Types -/

/-- The name of a type whose template arguments are read by `arg`. Among template arguments,
where `inArgs` is set, an integer is a name, too. -/
def typenameWith (arg : Parse TypeExpr) (inArgs : Bool) : Parse Typename := do
  let t ← peek
  if t.kind.isBasicType then basicTypename
  else if inArgs && t.kind == .intLiteral then
    discard advance
    pure (.simple t.lexeme)
  else
    let (namespaces, name) ← path
    let args ← if ← check .less then templateArgs arg else pure []
    pure (.ofPath namespaces name args)

/-- The sign of a pointer or reference, if one follows. -/
def indirection : Parse (Option Indirection) := do
  if ← eat .star then pure (some .shared)
  else if ← eat .atSign then pure (some .raw)
  else if ← eat .amp then pure (some .ref)
  else pure none

/-- One type, where `self` reads the types inside it. -/
def typeRule (self : Bool → Parse TypeExpr) (inArgs : Bool) : Parse TypeExpr := do
  let isConst ← eat .kwConst
  let name ← typenameWith (self true) inArgs
  let sign ← indirection
  pure (.ofTypename name isConst sign)

/-- One type; among template arguments if `inArgs` is set. -/
def typeIn (inArgs : Bool) : Parse TypeExpr := fix typeRule inArgs

/-- One type. -/
def typeUse : Parse TypeExpr := typeIn false

/-- The name of a type, without qualifiers. -/
def typename : Parse Typename := typenameWith (typeIn true) false

/-- What a callable returns. -/
def returnType : Parse ReturnType := do
  let t ← typeUse
  pure (.ofType t)

/-! ## Template headers -/

/-- The types listed behind a template parameter. -/
def choices : Parse (List TypeExpr) := do
  if ← eat .equal then
    discard (expect .leftBrace)
    let types ← if ← check .rightBrace then pure [] else commaSeparated typeUse
    discard (expect .rightBrace)
    pure types
  else pure []

/-- A template parameter. -/
def templateParam : Parse TemplateParam := do
  let name ← expectIdentifier
  let types ← choices
  pure ⟨name, types⟩

/-- The header of a template. -/
def templateHeader : Parse Template := do
  discard (expect .kwTemplate)
  let params ← bracketed "template header declares no parameters" templateParam
  pure ⟨params⟩

end Parse

/-- Reads the tokens of a source text by a rule, unless some of its text is no token. -/
def parseWith {α : Type} (rule : Parse α) (source : String) : Except (List ParseError) α :=
  let r := Lexed.ofSource source
  if r.errors.isEmpty then
    match rule.run (.ofLexed r) with
    | .ok a _ => .ok a
    | .error e _ => .error [e]
  else .error (r.errors.map ParseError.ofLexError)

/-- The type that a text is. -/
def TypeExpr.parse (source : String) : Except (List ParseError) TypeExpr :=
  parseWith (do let t ← Parse.typeUse; Parse.expectEof; pure t) source

end TemplateIdl
