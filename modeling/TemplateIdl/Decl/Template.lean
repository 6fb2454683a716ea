import TemplateIdl.TypeExpr.Cpp

/-!
# Template — parameters of declarations and what they are bound to

- `TemplateParam` and `Template`, a template header with the types listed in it
- `Provenance`, the generic declaration and the types from which a concrete one was made
- `Template.text`, the header as it is written, and `Provenance.callName`, the name that C++
  code calls an instance by
-/

namespace TemplateIdl

/-- A template parameter with the types that its header lists for it. -/
structure TemplateParam where
  name : String
  /-- The types listed behind the name; none if there is no list. -/
  choices : List TypeExpr
deriving DecidableEq, Inhabited

/-- A template header. -/
structure Template where
  params : List TemplateParam
deriving DecidableEq, Inhabited

namespace Template

/-- Number of parameters. -/
def arity (t : Template) : Nat := t.params.length

/-- Names of the parameters in order. -/
def names (t : Template) : List String := t.params.map TemplateParam.name

/-- Types listed for the parameters in order. -/
def choices (t : Template) : List (List TypeExpr) := t.params.map TemplateParam.choices

end Template

/-- A parameter as it is written. -/
def TemplateParam.text (p : TemplateParam) : String :=
  if p.choices.isEmpty then p.name
  else p.name ++ " = \x7b" ++ String.intercalate ", " (p.choices.map TypeExpr.text) ++ "\x7d"

/-- A header as it is written. -/
def Template.text (t : Template) : String :=
  "template<" ++ String.intercalate ", " (t.params.map TemplateParam.text) ++ ">"

/-- The header in front of a declaration, if the declaration has one. -/
def headerText : Option Template → String
  | some t => t.text ++ " "
  | none => ""

/-- Names of the parameters of a declaration; none without a header. -/
def paramNames : Option Template → List String
  | some t => t.names
  | none => []

/-- Where a concrete declaration comes from. -/
structure Provenance where
  /-- Name of the generic declaration. -/
  genericName : String
  /-- Types bound to its own parameters in order. -/
  bindings : List TypeExpr
deriving DecidableEq, Inhabited

/-- The name with its template arguments in C++, as in `name<A,B>`. -/
def Provenance.callName (p : Provenance) : String :=
  p.genericName ++ "<" ++ String.intercalate "," (p.bindings.map TypeExpr.cpp) ++ ">"

/-- The name that C++ code calls a function by: instances with bindings are called by their
generic name with arguments. -/
def callName (name : String) : Option Provenance → String
  | some p => if p.bindings.isEmpty then name else p.callName
  | none => name

end TemplateIdl
