import TemplateIdl.Decl
import TemplateIdl.Grammar.Class
import TemplateIdl.Proofs.Grammar.Default

/-!
# Words of declarations

* `Argument.words`, `Template.words` and `ReturnType.words`, the words of what declarations share;
* `Member` and `ClassDecl.members`, the members of a class in the order of their printing;
* `Declaration.words` and `Interface.words`, the words of all declarations and of a whole file.

Members and the content of namespaces stand on lines of their own, so that the gap in front of
each of them is a line feed.
-/

namespace TemplateIdl

/-! ## What declarations share -/

/-- An argument. -/
def Argument.words (a : Argument) : List Token :=
  a.type.words ++ (Token.ident a.name).behind " " :: optionWords a.default?

/-- Arguments in parentheses. -/
def argumentsWords (args : List Argument) : List Token :=
  .sign .leftParen :: (joinWords (args.map Argument.words) ++ [.sign .rightParen])

/-- A template parameter with the types listed for it. -/
def TemplateParam.words (p : TemplateParam) : List Token :=
  .ident p.name ::
    if p.choices.isEmpty then []
    else (Token.sign .equal).behind " " :: (Token.sign .leftBrace).behind " " ::
      (joinWords (p.choices.map TypeExpr.words) ++ [.sign .rightBrace])

/-- A template header. -/
def Template.words (t : Template) : List Token :=
  .sign .kwTemplate :: .sign .less ::
    (joinWords (t.params.map TemplateParam.words) ++ [closer ""])

/-- Words behind the header of a template, if there is one. -/
def headerWords (template : Option Template) (ws : List Token) : List Token :=
  match template with
  | some t => t.words ++ lead " " ws
  | none => ws

/-- A result as one type: two types are written as the arguments of `pair`. -/
def ReturnType.written : ReturnType → TypeExpr
  | .single t => t
  | .pair s t => .mk [] "pair" [s, t] false none false

/-- A result. -/
def ReturnType.words (r : ReturnType) : List Token := r.written.words

/-- The end of a method. -/
def methodEnd (isConst : Bool) : List Token :=
  if isConst then [(Token.sign .kwConst).behind " ", .sign .semicolon] else [.sign .semicolon]

/-- A name without qualifiers. -/
def Typename.words (t : Typename) : List Token :=
  pathWords t.namespaces t.name ++ angledWords (t.args.map TypeExpr.words)

/-- A parent class behind its colon. -/
def parentWords : Option TypeExpr → List Token
  | some t => (Token.sign .colon).behind " " :: lead " " t.words
  | none => []

/-! ## Members -/

/-- The tokens that an operator is written with. -/
def OperatorSymbol.kinds : OperatorSymbol → List Kind
  | add => [.plus]
  | sub => [.minus]
  | mul => [.star]
  | div => [.slash]
  | rem => [.percent]
  | bitXor => [.caret]
  | bitAnd => [.amp]
  | bitOr => [.pipe]
  | addAssign => [.plusEqual]
  | subAssign => [.minusEqual]
  | mulAssign => [.starEqual]
  | divAssign => [.slashEqual]
  | remAssign => [.percentEqual]
  | bitXorAssign => [.caretEqual]
  | bitAndAssign => [.ampEqual]
  | bitOrAssign => [.pipeEqual]
  | shl => [.lessLess]
  | shlAssign => [.lessLessEqual]
  | shr => [.greaterGreater]
  | shrAssign => [.greaterGreaterEqual]
  | eq => [.equalEqual]
  | ne => [.bangEqual]
  | lt => [.less]
  | gt => [.greater]
  | le => [.lessEqual]
  | ge => [.greaterEqual]
  | call => [.leftParen, .rightParen]
  | index => [.leftBracket, .rightBracket]

/-- All operators but two are written with one token. -/
theorem OperatorSymbol.kinds_cases (o : OperatorSymbol) :
    (∃ k, o.kinds = [k] ∧ ofKind? k = some o ∧ k.spelling.isSome = true) ∨
      o = .call ∨ o = .index := by
  cases o with
  | call => exact .inr (.inl rfl)
  | index => exact .inr (.inr rfl)
  | _ => exact .inl ⟨_, rfl, rfl, rfl⟩

/-- A constructor. -/
def Constructor.words (d : Constructor) : List Token :=
  headerWords d.template (.ident d.name :: (argumentsWords d.args ++ [.sign .semicolon]))

/-- What stands behind the result of a callable. -/
def callableWords (name : String) (args : List Argument) (ends : List Token) : List Token :=
  (Token.ident name).behind " " :: (argumentsWords args ++ ends)

/-- A method. -/
def Method.words (d : Method) : List Token :=
  headerWords d.template (d.result.words ++ callableWords d.name d.args (methodEnd d.isConst))

/-- A static method. -/
def StaticMethod.words (d : StaticMethod) : List Token :=
  headerWords d.template
    (.sign .kwStatic :: lead " " (d.result.words ++ callableWords d.name d.args [.sign .semicolon]))

/-- A special method. -/
def SpecialMethod.words (d : SpecialMethod) : List Token :=
  .ident ("__" ++ d.name ++ "__") :: (argumentsWords d.args ++ [.sign .semicolon])

/-- An operator method. -/
def OperatorMethod.words (d : OperatorMethod) : List Token :=
  d.result.words ++ (Token.sign .kwOperator).behind " " ::
    (d.symbol.kinds.map Token.sign ++ (argumentsWords d.args ++ methodEnd d.isConst))

/-- A variable. -/
def VariableDecl.words (d : VariableDecl) : List Token :=
  headerWords d.template (d.type.words ++ (Token.ident d.name).behind " " ::
    (optionWords d.default? ++ [.sign .semicolon]))

/-- An enumeration. -/
def EnumDecl.words (d : EnumDecl) : List Token :=
  .sign .kwEnum :: lead " " (flagWords .kwClass d.isScoped
    (.ident d.name :: (Token.sign .leftBrace).behind " " ::
      (joinWords (d.enumerators.map fun n => [.ident n]) ++
        [.sign .rightBrace, .sign .semicolon])))

/-- A member of any kind. -/
def Member.words : Member → List Token
  | .ctor d => d.words
  | .method d => d.words
  | .static d => d.words
  | .special d => d.words
  | .operator d => d.words
  | .property d => d.words
  | .enumeration d => d.words

/-- A member of any kind as it is written. -/
def Member.text : Member → String
  | .ctor d => d.text
  | .method d => d.text
  | .static d => d.text
  | .special d => d.text
  | .operator d => d.text
  | .property d => d.text
  | .enumeration d => d.text

/-- All members, grouped by what they are. -/
def ClassDecl.members (c : ClassDecl) : List Member :=
  c.ctors.map .ctor ++ c.methods.map .method ++ c.statics.map .static ++ c.specials.map .special
    ++ c.operators.map .operator ++ c.properties.map .property ++ c.enums.map .enumeration

theorem ClassDecl.memberTexts_eq (c : ClassDecl) : c.memberTexts = c.members.map Member.text := by
  simp only [memberTexts, members, List.map_append, List.map_map]
  rfl

/-! ## Declarations -/

/-- What stands between the header of a template and the end of a class or of its forward
declaration. -/
def classWords (isVirtual : Bool) (name : List Token) (parent : Option TypeExpr)
    (ends : List Token) : List Token :=
  flagWords .kwVirtual isVirtual (.sign .kwClass :: (lead " " name ++ (parentWords parent ++ ends)))

/-- A class. -/
def ClassDecl.words (c : ClassDecl) : List Token :=
  headerWords c.template (classWords c.isVirtual (nameWords c.name) c.parent
    ((Token.sign .leftBrace).behind " " :: (c.members.flatMap (fun m => lead "\n  " m.words) ++
      [(Token.sign .rightBrace).behind "\n", .sign .semicolon])))

/-- A forward declaration. -/
def ForwardDecl.words (d : ForwardDecl) : List Token :=
  headerWords d.template
    (classWords d.isVirtual d.typename.words d.parent [.sign .semicolon])

/-- A function. -/
def FunctionDecl.words (d : FunctionDecl) : List Token :=
  headerWords d.template (d.result.words ++ callableWords d.name d.args [.sign .semicolon])

/-- A typedef. -/
def TypedefDecl.words (d : TypedefDecl) : List Token :=
  .sign .kwTypedef :: (lead " " d.target.words ++
    [(Token.ident d.newName).behind " ", .sign .semicolon])

/-- The include of another file, which is one token. -/
def IncludeDecl.words (d : IncludeDecl) : List Token :=
  [.word .includeDirective d.text]

namespace Declaration

mutual

/-- The words of a declaration. -/
def words : Declaration → List Token
  | inclusion d => d.words
  | space name content _ =>
    .sign .kwNamespace :: (Token.ident name).behind " " :: (Token.sign .leftBrace).behind " " ::
      (contentWords content ++ [(Token.sign .rightBrace).behind "\n"])
  | cls d => d.words
  | forward d => d.words
  | enumeration d => d.words
  | var d => d.words
  | function d => d.words
  | typedef d => d.words

/-- The words of several declarations, each on a line of its own. -/
def contentWords : List Declaration → List Token
  | [] => []
  | d :: ds => lead "\n" (words d) ++ contentWords ds

end

theorem contentWords_eq_flatMap (ds : List Declaration) :
    contentWords ds = ds.flatMap fun d => lead "\n" d.words := by
  induction ds with
  | nil => rfl
  | cons d ds ih => rw [contentWords, ih, List.flatMap_cons]

end Declaration

/-- The words of a file, of which the first one stands at the beginning. -/
def Interface.words (m : Interface) : List Token :=
  lead "" (Declaration.contentWords m.content)

end TemplateIdl
