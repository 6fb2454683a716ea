import TemplateIdl.TypeExpr.Conventions
import TemplateIdl.TypeExpr.Printer

/-!
# C++ form of type uses

- `Indirection.wrap` and `constant`, what the qualifiers add to a name in C++
- `TypeExpr.cppWith`, a type use in C++ under a project's conventions
- `TypeExpr.cpp`, `Typename.cppWith` and `Typename.cpp`, the form without conventions and the
  form of a name
-/

namespace TemplateIdl

/-- A name in C++ behind which the sign stands. -/
def Indirection.wrap : Option Indirection → String → String
  | some .shared, s => "std::shared_ptr<" ++ s ++ ">"
  | some .raw, s => s ++ "*"
  | some .ref, s => s ++ "&"
  | none, s => s

/-- A type in C++, constant if so told. -/
def constant (isConst : Bool) (s : String) : String :=
  if isConst then "const " ++ s else s

namespace TypeExpr

/-- The form of a special name: a constant reference, in the project's namespace `ns` unless
the name has one of its own. -/
def aliasText (ns : String) (path : List String) (name : String) : String :=
  "const " ++ pathText (if path.isEmpty then [ns] else path) name ++ "&"

mutual

/-- A type use in C++. A special name without arguments ignores the qualifiers. -/
def cppWith (c : Conventions) : TypeExpr → String
  | mk ns name args isConst indirection _ =>
    match if args.isEmpty then c.alias? name else none with
    | some home => aliasText home ns name
    | none =>
      constant isConst
        (Indirection.wrap indirection (pathText ns name ++ angled (cppsWith c args)))

/-- Several type uses in C++. -/
def cppsWith (c : Conventions) : List TypeExpr → List String
  | [] => []
  | t :: ts => cppWith c t :: cppsWith c ts

end

@[simp] theorem cppsWith_eq_map (c : Conventions) (ts : List TypeExpr) :
    cppsWith c ts = ts.map (cppWith c) := by
  induction ts with
  | nil => rfl
  | cons t ts ih => simp [cppsWith, ih]

/-- A type use in C++, where no name is special. -/
def cpp (t : TypeExpr) : String := t.cppWith .empty

end TypeExpr

namespace Typename

/-- A name in C++; the conventions apply to its arguments only. -/
def cppWith (c : Conventions) (t : Typename) : String :=
  t.qualifiedName ++ angled (t.args.map (TypeExpr.cppWith c))

/-- A name in C++, where no name is special. -/
def cpp (t : Typename) : String := t.cppWith .empty

end Typename

end TemplateIdl
