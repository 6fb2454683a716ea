import TemplateIdl.Decl
import TemplateIdl.Grammar.Arguments
import TemplateIdl.Grammar.Enum

/-!
# Grammar of classes

- `ClassHead`, what the members of a class have to know of it
- `Member`, a member of any kind, and `ClassHead.close`, the class of some members
- `Parse.member`, one member
- `Parse.classOrForward`, a class or a forward declaration
-/

namespace TemplateIdl

/-! ## Classes from their members -/

/-- A class without its members. -/
structure ClassHead where
  name : String
  template : Option Template
  isVirtual : Bool
  parent : Option TypeExpr
  namespaces : List String
deriving DecidableEq, Inhabited

/-- A member of a class. -/
inductive Member where
  | ctor (d : Constructor)
  | method (d : Method)
  | static (d : StaticMethod)
  | special (d : SpecialMethod)
  | operator (d : OperatorMethod)
  | property (d : VariableDecl)
  | enumeration (d : EnumDecl)
deriving DecidableEq, Inhabited

/-- The type that the members belong to. -/
def ClassHead.selfType (h : ClassHead) : Typename :=
  .ofPath h.namespaces h.name ((paramNames h.template).map TypeExpr.named)

/-- The class with the given members, which are grouped by their kind. -/
def ClassHead.close (h : ClassHead) (ms : List Member) (span : Span) : ClassDecl where
  name := h.name
  template := h.template
  isVirtual := h.isVirtual
  parent := h.parent
  ctors := ms.filterMap fun | .ctor d => some d | _ => none
  methods := ms.filterMap fun | .method d => some d | _ => none
  statics := ms.filterMap fun | .static d => some d | _ => none
  specials := ms.filterMap fun | .special d => some d | _ => none
  operators := ms.filterMap fun | .operator d => some d | _ => none
  properties := ms.filterMap fun | .property d => some d | _ => none
  enums := ms.filterMap fun | .enumeration d => some d | _ => none
  namespaces := h.namespaces
  span := span
  provenance := none

/-- The owner that members are given is the class that they end up in. -/
theorem ClassHead.selfType_close (h : ClassHead) (ms : List Member) (span : Span) :
    (h.close ms span).selfType = h.selfType := by
  obtain ⟨name, template, isVirtual, parent, namespaces⟩ := h
  cases template <;> rfl

/-! ## Names with a meaning -/

/-- The characters between the double underscores of a special method. -/
def specialName? (cs : List Char) : Option (List Char) :=
  match cs with
  | '_' :: '_' :: rest =>
    match rest.reverse with
    | '_' :: '_' :: c :: front => some (c :: front).reverse
    | _ => none
  | _ => none

/-- The operator that a single token stands for. -/
def OperatorSymbol.ofKind? : Kind → Option OperatorSymbol
  | .plus => some add
  | .minus => some sub
  | .star => some mul
  | .slash => some div
  | .percent => some rem
  | .caret => some bitXor
  | .amp => some bitAnd
  | .pipe => some bitOr
  | .plusEqual => some addAssign
  | .minusEqual => some subAssign
  | .starEqual => some mulAssign
  | .slashEqual => some divAssign
  | .percentEqual => some remAssign
  | .caretEqual => some bitXorAssign
  | .ampEqual => some bitAndAssign
  | .pipeEqual => some bitOrAssign
  | .lessLess => some shl
  | .lessLessEqual => some shlAssign
  | .greaterGreater => some shr
  | .greaterGreaterEqual => some shrAssign
  | .equalEqual => some eq
  | .bangEqual => some ne
  | .less => some lt
  | .greater => some gt
  | .lessEqual => some le
  | .greaterEqual => some ge
  | _ => none

namespace Parse

/-! ## Members -/

/-- The sign of an operator. -/
def operatorSymbol : Parse OperatorSymbol := do
  let t ← advance
  let bad := fail .expectedOperator t.span ("'" ++ t.lexeme ++ "' is not an overloadable operator")
  match OperatorSymbol.ofKind? t.kind with
  | some o => pure o
  | none =>
    if t.kind = .leftParen then
      if ← eat .rightParen then pure .call else bad
    else if t.kind = .leftBracket then
      if ← eat .rightBracket then pure .index else bad
    else bad

/-- What follows the name of a method. -/
def methodRest (h : ClassHead) (template : Option Template) (start : Span) (result : ReturnType)
    (name : String) : Parse Member := do
  let args ← arguments
  let isConst ← eat .kwConst
  discard (expect .semicolon)
  let span ← spanFrom start
  pure (.method ⟨name, result, args, isConst, h.selfType, template, span, none⟩)

/-- What follows the word `static`. -/
def staticRest (h : ClassHead) (template : Option Template) (start : Span) : Parse Member := do
  let result ← returnType
  let name ← expectIdentifier
  let args ← arguments
  discard (expect .semicolon)
  let span ← spanFrom start
  pure (.static ⟨name, result, args, h.selfType, template, span, none⟩)

/-- What follows the name `t` of a constructor or a special method. -/
def ctorRest (h : ClassHead) (template : Option Template) (start : Span) (t : Token) :
    Parse Member := do
  match specialName? t.lexeme.toList with
  | some name =>
    if template.isSome then
      -- refused before the arguments are read
      fail .invalidDeclaration t.span "special methods cannot be templated"
    else
      let args ← arguments
      discard (expect .semicolon)
      let span ← spanFrom start
      pure (.special ⟨String.ofList name, args, h.selfType, span⟩)
  | none =>
    if t.lexeme = h.name then
      let args ← arguments
      discard (expect .semicolon)
      let span ← spanFrom start
      pure (.ctor ⟨t.lexeme, args, h.selfType, template, span, none⟩)
    else
      fail .invalidDeclaration t.span
        ("constructor name '" ++ t.lexeme ++ "' does not match class '" ++ h.name ++ "'")

/-- A member that may have a template header, which has been read. -/
def templatableMember (h : ClassHead) (template : Option Template) (start : Span) :
    Parse Member := do
  if ← eat .kwStatic then staticRest h template start
  else
    let t ← peek
    if t.kind = .identifier && (← checkSecond .leftParen) then
      discard advance
      ctorRest h template start t
    else
      let result ← returnType
      let name ← expectIdentifier
      methodRest h template start result name

/-- A member that begins with a type: an operator, a method or a property. -/
def typedMember (h : ClassHead) (start : Span) : Parse Member := do
  let type ← typeUse
  if ← eat .kwOperator then
    let symbol ← operatorSymbol
    let args ← arguments
    let isConst ← eat .kwConst
    discard (expect .semicolon)
    let span ← spanFrom start
    pure (.operator ⟨symbol, .ofType type, args, isConst, h.selfType, span⟩)
  else
    let name ← expectIdentifier
    if ← check .leftParen then methodRest h none start (.ofType type) name
    else
      let default? ← optionalDefault
      discard (expect .semicolon)
      let span ← spanFrom start
      pure (.property ⟨type, name, default?, none, h.namespaces, some h.selfType, span, none⟩)

/-- One member of a class. -/
def member (h : ClassHead) : Parse Member := do
  let t ← peek
  match t.kind with
  | .eof => throw (.unexpectedEof t.span)
  | .kwEnum => do
    let e ← enumeration h.namespaces
    pure (.enumeration e)
  | .kwTemplate => do
    let template ← templateHeader
    templatableMember h (some template) t.span
  | .kwStatic => templatableMember h none t.span
  | .identifier => do
    -- a name with arguments right behind it is that of a constructor or a special method
    if ← checkSecond .leftParen then templatableMember h none t.span
    else typedMember h t.span
  | .kwConst | .colonColon => typedMember h t.span
  | k =>
    if k.isBasicType then typedMember h t.span
    else fail .expectedClassMember t.span ("expected class member, found " ++ t.lexeme)

/-! ## Classes -/

/-- The body of a class behind its head. -/
def classBody (h : ClassHead) (start : Span) : Parse ClassDecl := do
  discard (expect .leftBrace)
  let members ← manyWhile (·.peek.kind != .rightBrace) (member h)
  discard (expect .rightBrace)
  discard (expect .semicolon)
  let span ← spanFrom start
  pure (h.close members span)

/-- The parent of a class behind a colon, if there is one. -/
def optionalParent : Parse (Option TypeExpr) := do
  if ← eat .colon then
    let t ← typeUse
    pure (some t)
  else pure none

/-- A class, or a forward declaration, which ends before its body. -/
def classOrForward (namespaces : List String) (template : Option Template) (start : Span) :
    Parse Declaration := do
  let isVirtual ← eat .kwVirtual
  discard (expect .kwClass)
  let nameToken ← peek
  let name ← typename
  let parent ← optionalParent
  if ← eat .semicolon then
    let span ← spanFrom start
    pure (.forward ⟨name.name, name, parent, isVirtual, template, namespaces, span, none⟩)
  else if name.namespaces.isEmpty && !name.isTemplated then
    -- a built-in type is a name without namespaces, too
    let c ← classBody ⟨name.name, template, isVirtual, parent, namespaces⟩ start
    pure (.cls c)
  else
    fail .invalidDeclaration nameToken.span
      ("class definition name must be a plain identifier, found '" ++ name.text ++ "'")

end Parse

end TemplateIdl
