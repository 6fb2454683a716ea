import TemplateIdl.TypeExpr.Cpp

/-!
# Signature — arguments and results of callables

- `Argument`, a named argument with its default, and lists of arguments
- `ReturnType`, one type or a pair of types
- their forms in the interface language and in C++
-/

namespace TemplateIdl

/-! ## Arguments -/

/-- An argument. The default is kept exactly as it is written. -/
structure Argument where
  type : TypeExpr
  name : String
  default? : Option String
deriving DecidableEq, Inhabited

/-- A default behind its equals sign; nothing without a default. -/
def defaultText : Option String → String
  | some d => " = " ++ d
  | none => ""

/-- An argument as it is written. -/
def Argument.text (a : Argument) : String :=
  a.type.text ++ " " ++ a.name ++ defaultText a.default?

/-- Arguments as they are written, without the parentheses. -/
def argumentsText (args : List Argument) : String :=
  String.intercalate ", " (args.map Argument.text)

/-- The types of arguments in C++ under a project's conventions. -/
def argumentsCppWith (c : Conventions) (args : List Argument) : List String :=
  args.map fun a => a.type.cppWith c

/-- The types of arguments in C++. -/
def argumentsCpp (args : List Argument) : List String :=
  argumentsCppWith .empty args

/-! ## Results -/

/-- What a callable returns. -/
inductive ReturnType where
  | single (type : TypeExpr)
  | pair (first second : TypeExpr)
deriving DecidableEq, Inhabited

namespace ReturnType

/-- The type, or the first one of a pair. -/
def first : ReturnType → TypeExpr
  | single t => t
  | pair s _ => s

/-- The second type of a pair. -/
def second? : ReturnType → Option TypeExpr
  | single _ => none
  | pair _ t => some t

/-- Whether two types are returned. -/
def isPair : ReturnType → Bool
  | single _ => false
  | pair _ _ => true

/-- Whether nothing is returned: the name of the type is `void`, whatever its qualifiers. -/
def isVoid : ReturnType → Bool
  | single t => t.canonical == "void"
  | pair _ _ => false

/-- A name `pair`, or `std::pair`, with two arguments that have no arguments themselves and
without qualifiers of its own, returns two types; any other type is returned as it is. -/
def ofType (t : TypeExpr) : ReturnType :=
  match t.args with
  | [first, second] =>
    if t.name = "pair" ∧ (t.namespaces = [] ∨ t.namespaces = ["std"]) ∧ t.isConst = false
        ∧ t.indirection = none ∧ first.isTemplated = false ∧ second.isTemplated = false then
      pair first second
    else single t
  | _ => single t

/-- A result as it is written. -/
def text : ReturnType → String
  | single t => t.text
  | pair s t => "pair<" ++ s.text ++ ", " ++ t.text ++ ">"

/-- A result in C++ under a project's conventions. -/
def cppWith (c : Conventions) : ReturnType → String
  | single t => t.cppWith c
  | pair s t => "std::pair<" ++ s.cppWith c ++ ", " ++ t.cppWith c ++ ">"

/-- A result in C++. -/
def cpp (r : ReturnType) : String := r.cppWith .empty

end ReturnType

end TemplateIdl
