import TemplateIdl.TypeExpr

/-!
# Printer of type uses — the form of the interface language

- `pathText`, a name behind its namespaces
- `angled`, template arguments in angle brackets
- `TypeExpr.text`, a type use as it is written in an interface file
- `Typename.text`, the same for a name without qualifiers, which is its canonical form, and
  `Typename.templatedName`, the form without namespaces
-/

namespace TemplateIdl

/-- A name behind its namespaces, each of which `::` follows. -/
def pathText : List String → String → String
  | [], name => name
  | ns :: rest, name => ns ++ "::" ++ pathText rest name

/-- Texts of template arguments in angle brackets; nothing without arguments. -/
def angled (texts : List String) : String :=
  if texts.isEmpty then "" else "<" ++ String.intercalate ", " texts ++ ">"

/-- The sign itself. -/
def Indirection.symbol : Indirection → String
  | .shared => "*"
  | .raw => "@"
  | .ref => "&"

/-- The sign behind a name, if there is one. -/
def indirectionText : Option Indirection → String
  | some i => i.symbol
  | none => ""

namespace TypeExpr

mutual

/-- A type use as it is written in an interface file. -/
def text : TypeExpr → String
  | mk ns name args isConst indirection _ =>
    (if isConst then "const " else "") ++ pathText ns name ++ angled (texts args)
      ++ indirectionText indirection

/-- The texts of several type uses. -/
def texts : List TypeExpr → List String
  | [] => []
  | t :: ts => text t :: texts ts

end

@[simp] theorem texts_eq_map (ts : List TypeExpr) : texts ts = ts.map text := by
  induction ts with
  | nil => rfl
  | cons t ts ih => simp [texts, ih]

end TypeExpr

namespace Typename

/-- The name behind its namespaces, without template arguments. -/
def qualifiedName (t : Typename) : String := pathText t.namespaces t.name

/-- The name with its template arguments, without namespaces. -/
def templatedName (t : Typename) : String := t.name ++ angled (t.args.map TypeExpr.text)

/-- The canonical form of the name. -/
def text (t : Typename) : String := t.qualifiedName ++ angled (t.args.map TypeExpr.text)

end Typename

namespace TypeExpr

/-- The canonical form of the name in a type use, which leaves out the qualifiers. -/
def canonical (t : TypeExpr) : String := t.typename.text

/-- A type use is its name between the qualifiers. -/
theorem text_eq (t : TypeExpr) :
    t.text = (if t.isConst then "const " else "") ++ t.canonical
      ++ indirectionText t.indirection := by
  cases t with
  | mk ns n as c i b =>
    cases c <;> simp [text, canonical, Typename.text, Typename.qualifiedName, typename, isConst,
      indirection, namespaces, name, args, String.append_assoc]

end TypeExpr

end TemplateIdl
