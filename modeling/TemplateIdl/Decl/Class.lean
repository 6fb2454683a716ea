import TemplateIdl.Decl.Free
import TemplateIdl.Text.Lines

/-!
# Class — classes and their members

- `Constructor`, `Method`, `StaticMethod`, `SpecialMethod` and `OperatorMethod`, the members
  with arguments; properties are variables
- `OperatorSymbol`, the operators that a class can define
- `ClassDecl`, a class, with the types that it stands for: `ClassDecl.cppType` and
  `ClassDecl.selfType`
- their texts in the interface language
-/

namespace TemplateIdl

/-! ## Members -/

/-- A constructor. -/
structure Constructor where
  name : String
  args : List Argument
  /-- The class that it belongs to. -/
  owner : Typename
  template : Option Template
  span : Span
  provenance : Option Provenance
deriving DecidableEq, Inhabited

/-- A method of an object. -/
structure Method where
  name : String
  result : ReturnType
  args : List Argument
  isConst : Bool
  /-- The class that it belongs to. -/
  owner : Typename
  template : Option Template
  span : Span
  provenance : Option Provenance
deriving DecidableEq, Inhabited

/-- A method of the class itself. -/
structure StaticMethod where
  name : String
  result : ReturnType
  args : List Argument
  /-- The class that it belongs to. -/
  owner : Typename
  template : Option Template
  span : Span
  provenance : Option Provenance
deriving DecidableEq, Inhabited

/-- A method with a fixed meaning, which is written between double underscores and named without
them. -/
structure SpecialMethod where
  name : String
  args : List Argument
  /-- The class that it belongs to. -/
  owner : Typename
  span : Span
deriving DecidableEq, Inhabited

/-- The operators that a class can define. -/
inductive OperatorSymbol where
  | add | sub | mul | div | rem | bitXor | bitAnd | bitOr
  | addAssign | subAssign | mulAssign | divAssign | remAssign | bitXorAssign | bitAndAssign
  | bitOrAssign
  | shl | shlAssign | shr | shrAssign
  | eq | ne | lt | gt | le | ge
  | call | index
deriving DecidableEq, Inhabited

/-- The sign of an operator. -/
def OperatorSymbol.text : OperatorSymbol → String
  | add => "+"
  | sub => "-"
  | mul => "*"
  | div => "/"
  | rem => "%"
  | bitXor => "^"
  | bitAnd => "&"
  | bitOr => "|"
  | addAssign => "+="
  | subAssign => "-="
  | mulAssign => "*="
  | divAssign => "/="
  | remAssign => "%="
  | bitXorAssign => "^="
  | bitAndAssign => "&="
  | bitOrAssign => "|="
  | shl => "<<"
  | shlAssign => "<<="
  | shr => ">>"
  | shrAssign => ">>="
  | eq => "=="
  | ne => "!="
  | lt => "<"
  | gt => ">"
  | le => "<="
  | ge => ">="
  | call => "()"
  | index => "[]"

/-- A method that defines an operator. -/
structure OperatorMethod where
  symbol : OperatorSymbol
  result : ReturnType
  args : List Argument
  isConst : Bool
  /-- The class that it belongs to. -/
  owner : Typename
  span : Span
deriving DecidableEq, Inhabited

/-- An operator without arguments has the object as its only operand. -/
def OperatorMethod.isUnary (d : OperatorMethod) : Bool := d.args.isEmpty

/-- The name of an operator method. -/
def OperatorMethod.name (d : OperatorMethod) : String := "operator" ++ d.symbol.text

/-! ## Classes -/

/-- A class. -/
structure ClassDecl where
  /-- The written name, or the name of an instance. -/
  name : String
  template : Option Template
  isVirtual : Bool
  parent : Option TypeExpr
  ctors : List Constructor
  methods : List Method
  statics : List StaticMethod
  specials : List SpecialMethod
  operators : List OperatorMethod
  properties : List VariableDecl
  enums : List EnumDecl
  namespaces : List String
  span : Span
  provenance : Option Provenance
deriving DecidableEq, Inhabited

namespace ClassDecl

/-- A class without members. -/
def bare (name : String) (namespaces : List String) (span : Span) : ClassDecl :=
  ⟨name, none, false, none, [], [], [], [], [], [], [], namespaces, span, none⟩

/-- The name of the class as it is written in the interface file. -/
def genericName (c : ClassDecl) : String :=
  match c.provenance with
  | some p => p.genericName
  | none => c.name

/-- The C++ type that the class stands for: its generic name with the bindings. -/
def cppType (c : ClassDecl) : Typename :=
  match c.provenance with
  | some p => .ofPath c.namespaces p.genericName p.bindings
  | none => .ofPath c.namespaces c.name []

/-- The C++ type in C++. -/
def cppName (c : ClassDecl) : String := c.cppType.cpp

/-- The type that the members belong to. A generic class has its own parameters as arguments. -/
def selfType (c : ClassDecl) : Typename :=
  match c.provenance, c.template with
  | none, some t => .ofPath c.namespaces c.name (t.names.map TypeExpr.named)
  | _, _ => c.cppType

end ClassDecl

/-! ## Texts -/

/-- The word behind a constant method. -/
def constText (isConst : Bool) : String :=
  if isConst then " const" else ""

/-- A constructor as it is written. -/
def Constructor.text (d : Constructor) : String :=
  headerText d.template ++ d.name ++ "(" ++ argumentsText d.args ++ ");"

/-- A method as it is written. -/
def Method.text (d : Method) : String :=
  headerText d.template ++ d.result.text ++ " " ++ d.name ++ "(" ++ argumentsText d.args ++ ")"
    ++ constText d.isConst ++ ";"

/-- A static method as it is written. -/
def StaticMethod.text (d : StaticMethod) : String :=
  headerText d.template ++ "static " ++ d.result.text ++ " " ++ d.name ++ "("
    ++ argumentsText d.args ++ ");"

/-- A special method as it is written. -/
def SpecialMethod.text (d : SpecialMethod) : String :=
  "__" ++ d.name ++ "__(" ++ argumentsText d.args ++ ");"

/-- An operator method as it is written. -/
def OperatorMethod.text (d : OperatorMethod) : String :=
  d.result.text ++ " operator" ++ d.symbol.text ++ "(" ++ argumentsText d.args ++ ")"
    ++ constText d.isConst ++ ";"

/-- The name that C++ code calls the method by. -/
def Method.cppName (d : Method) : String := callName d.name d.provenance

/-- The name that C++ code calls the static method by. -/
def StaticMethod.cppName (d : StaticMethod) : String := callName d.name d.provenance

namespace ClassDecl

/-- The texts of all members, grouped by what they are. -/
def memberTexts (c : ClassDecl) : List String :=
  c.ctors.map Constructor.text ++ c.methods.map Method.text ++ c.statics.map StaticMethod.text
    ++ c.specials.map SpecialMethod.text ++ c.operators.map OperatorMethod.text
    ++ c.properties.map VariableDecl.text ++ c.enums.map EnumDecl.text

/-- A class as it is written, each member on a line of its own. -/
def text (c : ClassDecl) : String :=
  headerText c.template ++ virtualText c.isVirtual ++ "class " ++ c.name ++ parentText c.parent
    ++ " \x7b\n" ++ joinLines (c.memberTexts.map ("  " ++ ·)) ++ "\x7d;"

end ClassDecl

end TemplateIdl
