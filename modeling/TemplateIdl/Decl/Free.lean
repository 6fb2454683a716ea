import TemplateIdl.Decl.Signature
import TemplateIdl.Decl.Template
import TemplateIdl.Span

/-!
# Free declarations — what stands in a namespace by itself

- `IncludeDecl`, `VariableDecl`, `EnumDecl`, `ForwardDecl`, `FunctionDecl` and `TypedefDecl`
- their texts in the interface language and the C++ names of what they declare

A declaration knows the path of the namespaces that enclose it and where it stands. A
declaration made from a template knows its provenance.
-/

namespace TemplateIdl

/-- The include of another file. -/
structure IncludeDecl where
  path : String
  span : Span
deriving DecidableEq, Inhabited

/-- A variable, or a property of a class. -/
structure VariableDecl where
  type : TypeExpr
  name : String
  default? : Option String
  template : Option Template
  namespaces : List String
  /-- The class of a property. -/
  owner : Option Typename
  span : Span
  provenance : Option Provenance
deriving DecidableEq, Inhabited

/-- An enumeration. Values of enumerators are not kept. -/
structure EnumDecl where
  name : String
  enumerators : List String
  /-- Whether the enumeration opens a scope of its own. -/
  isScoped : Bool
  namespaces : List String
  span : Span
deriving DecidableEq, Inhabited

/-- A class that is only named. -/
structure ForwardDecl where
  /-- The base name, or the name of an instance. -/
  name : String
  /-- The name as it is written, which may have namespaces. -/
  typename : Typename
  parent : Option TypeExpr
  isVirtual : Bool
  template : Option Template
  namespaces : List String
  span : Span
  provenance : Option Provenance
deriving DecidableEq, Inhabited

/-- A function outside of classes. -/
structure FunctionDecl where
  name : String
  result : ReturnType
  args : List Argument
  template : Option Template
  namespaces : List String
  span : Span
  provenance : Option Provenance
deriving DecidableEq, Inhabited

/-- A name for an instance of a template. -/
structure TypedefDecl where
  /-- The template with its arguments. -/
  target : Typename
  newName : String
  namespaces : List String
  span : Span
deriving DecidableEq, Inhabited

/-! ## Texts -/

/-- An include as it is written. -/
def IncludeDecl.text (d : IncludeDecl) : String :=
  "#include <" ++ d.path ++ ">"

/-- A variable as it is written. -/
def VariableDecl.text (d : VariableDecl) : String :=
  headerText d.template ++ d.type.text ++ " " ++ d.name ++ defaultText d.default? ++ ";"

/-- An enumeration as it is written. -/
def EnumDecl.text (d : EnumDecl) : String :=
  (if d.isScoped then "enum class " else "enum ") ++ d.name ++ " \x7b"
    ++ String.intercalate ", " d.enumerators ++ "\x7d;"

/-- A parent class behind its colon; nothing without a parent. -/
def parentText : Option TypeExpr → String
  | some t => " : " ++ t.text
  | none => ""

/-- The word in front of a virtual class. -/
def virtualText (isVirtual : Bool) : String :=
  if isVirtual then "virtual " else ""

/-- A forward declaration as it is written. -/
def ForwardDecl.text (d : ForwardDecl) : String :=
  headerText d.template ++ virtualText d.isVirtual ++ "class " ++ d.typename.text
    ++ parentText d.parent ++ ";"

/-- A function as it is written. -/
def FunctionDecl.text (d : FunctionDecl) : String :=
  headerText d.template ++ d.result.text ++ " " ++ d.name ++ "(" ++ argumentsText d.args ++ ");"

/-- A typedef as it is written. -/
def TypedefDecl.text (d : TypedefDecl) : String :=
  "typedef " ++ d.target.text ++ " " ++ d.newName ++ ";"

/-! ## Names in C++ -/

/-- The class in C++: the enclosing namespaces, the written ones, the name, and the bindings of
an instance. -/
def ForwardDecl.cpp (d : ForwardDecl) : String :=
  let qualified := pathText (d.namespaces ++ d.typename.namespaces) d.typename.name
  match d.provenance with
  | some p =>
    if p.bindings.isEmpty then qualified
    else qualified ++ "<" ++ String.intercalate "," (p.bindings.map TypeExpr.canonical) ++ ">"
  | none => qualified

/-- The name that C++ code calls the function by. -/
def FunctionDecl.cppName (d : FunctionDecl) : String :=
  callName d.name d.provenance

end TemplateIdl
