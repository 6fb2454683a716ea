import TemplateIdl.Decl.Template
import TemplateIdl.Text.Uppercase

/-!
# Naming — names of instances

- `capitalized`, a name with a capital in front
- `generatedName`, the name of an instance: the generic name with the capitalised base names of
  the bindings behind it
- `instanceName`, the same unless another name is given
- `describe`, the instance in a way that tells it from others of the same generated name
-/

namespace TemplateIdl

/-- A name whose first character is a capital. -/
def capitalized (name : String) : String :=
  match name.toList with
  | [] => ""
  | c :: cs => String.ofList (uppercase c ++ cs)

/-- The generic name with the capitalised base names of the bindings behind it. -/
def generatedName (name : String) (bindings : List TypeExpr) : String :=
  name ++ String.join (bindings.map fun t => capitalized t.name)

/-- The new name if one is given, and the generated name otherwise. -/
def instanceName (name : String) (bindings : List TypeExpr) (newName : Option String) : String :=
  newName.getD (generatedName name bindings)

/-- The generic name with the canonical names of the bindings as arguments. -/
def describe (name : String) (bindings : List TypeExpr) : String :=
  name ++ angled (bindings.map TypeExpr.canonical)

/-- The provenance of an instance; a declaration without a template header has none. -/
def provenanceOf (template : Option Template) (name : String) (bindings : List TypeExpr) :
    Option Provenance :=
  template.map fun _ => ⟨name, bindings⟩

end TemplateIdl
