import TemplateIdl.Grammar.Class

/-!
# Grammar of declarations

- `includePath?`, the path in an include directive
- `Parse.declaration`, anything that can stand in a namespace
- `Interface.parse`, a whole interface file
-/

namespace TemplateIdl

/-! ## Include directives -/

/-- The text between an opening and a closing character. -/
def enclosed? (opening closing : Char) (cs : List Char) : Option (List Char) :=
  match cs with
  | [] => none
  | c :: rest =>
    if c = opening ∧ rest.getLast? = some closing then some rest.dropLast else none

/-- The path in an include directive, without the blanks at its ends. -/
def includePath? (directive : List Char) : Option (List Char) :=
  if Bite.includeWord.isPrefixOf directive then
    let rest := trimStart (directive.drop Bite.includeWord.length)
    ((enclosed? '<' '>' rest).or (enclosed? '"' '"' rest)).map trim
  else none

namespace Parse

/-- An include directive. -/
def inclusion : Parse IncludeDecl := do
  let t ← expect .includeDirective
  match includePath? t.lexeme.toList with
  | some path => pure ⟨String.ofList path, t.span⟩
  | none => fail .invalidSyntax t.span "malformed include directive"

/-! ## Declarations without content -/

/-- A typedef. Its target has template arguments and no qualifiers. -/
def typedef (namespaces : List String) : Parse TypedefDecl := do
  let start ← expect .kwTypedef
  let targetToken ← peek
  let target ← typeUse
  if !target.isTemplated then
    fail .expectedTemplateArgs targetToken.span
      ("typedef target '" ++ target.text ++ "' has no template arguments")
  else if target.isConst || target.indirection.isSome then
    fail .invalidModifier targetToken.span "typedef target cannot carry qualifiers"
  else
    let newName ← expectIdentifier
    discard (expect .semicolon)
    let span ← spanFrom start.span
    pure ⟨target.typename, newName, namespaces, span⟩

/-- A function or a variable: parentheses behind the name tell. -/
def functionOrVariable (namespaces : List String) (template : Option Template) (start : Span) :
    Parse Declaration := do
  let type ← typeUse
  let name ← expectIdentifier
  if ← check .leftParen then
    let args ← arguments
    discard (expect .semicolon)
    let span ← spanFrom start
    pure (.function ⟨name, .ofType type, args, template, namespaces, span, none⟩)
  else
    let default? ← optionalDefault
    discard (expect .semicolon)
    let span ← spanFrom start
    pure (.var ⟨type, name, default?, template, namespaces, none, span, none⟩)

/-! ## All declarations -/

/-- A namespace inside `namespaces`, whose declarations are read by `self`. -/
def space (self : List String → Parse Declaration) (namespaces : List String) :
    Parse Declaration := do
  let start ← expect .kwNamespace
  let name ← expectIdentifier
  discard (expect .leftBrace)
  let content ← manyWhile (·.peek.kind != .rightBrace) (self (namespaces ++ [name]))
  discard (expect .rightBrace)
  let span ← spanFrom start.span
  pure (.space name content span)

/-- One declaration inside `namespaces`, where `self` reads those inside it. -/
def declarationRule (self : List String → Parse Declaration) (namespaces : List String) :
    Parse Declaration := do
  let t ← peek
  match t.kind with
  | .includeDirective => do
    let d ← inclusion
    pure (.inclusion d)
  | .kwNamespace => space self namespaces
  | .kwTypedef => do
    let d ← typedef namespaces
    pure (.typedef d)
  | .kwEnum => do
    let d ← enumeration namespaces
    pure (.enumeration d)
  | .kwClass | .kwVirtual => classOrForward namespaces none t.span
  | .kwTemplate => do
    let template ← templateHeader
    let next ← peek
    if next.kind = .kwClass ∨ next.kind = .kwVirtual then
      classOrForward namespaces (some template) t.span
    else functionOrVariable namespaces (some template) t.span
  | .kwConst | .identifier | .colonColon => functionOrVariable namespaces none t.span
  | .eof => throw (.unexpectedEof t.span)
  | k =>
    if k.isBasicType then functionOrVariable namespaces none t.span
    else fail .expectedDeclaration t.span ("expected declaration, found " ++ t.lexeme)

/-- One declaration inside `namespaces`. -/
def declaration (namespaces : List String) : Parse Declaration :=
  fix declarationRule namespaces

/-- All declarations of a file. -/
def interface : Parse Interface := do
  let content ← manyWhile (·.peek.kind != .eof) (declaration [])
  pure ⟨content⟩

end Parse

/-- The interface file that a text is. All text that is no token is reported; otherwise the first
syntax error is. -/
def Interface.parse (source : String) : Except (List ParseError) Interface :=
  parseWith Parse.interface source

end TemplateIdl
