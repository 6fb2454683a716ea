import TemplateIdl.Decl.Free
import TemplateIdl.Expand.Naming
import TemplateIdl.Expand.Substitution

/-!
# Instances of free declarations

- `FunctionDecl.instantiate`, a function with types bound to its parameters
- `VariableDecl.instantiate`, a variable with types bound to its parameters
- `ForwardDecl.instantiate`, a forward declaration with types bound to its parameters

Where a number of types is refused for a typedef, the error is placed at the typedef: that is
the job of the forms with `At`.
-/

namespace TemplateIdl

/-! ## Functions -/

/-- A function with its parameters bound. `This` has no meaning in it. A wrong number of types is
reported at `span`. -/
def FunctionDecl.instantiateAt (span : Span) (d : FunctionDecl) (bindings : List TypeExpr)
    (newName : Option String) : Except ExpansionError FunctionDecl := do
  let σ ← Substitution.bind d.name (paramNames d.template) bindings span
  let result ← resolved d.name d.span (σ.substReturn? d.result)
  let args ← resolved d.name d.span (σ.substArguments? d.args)
  pure { d with
    name := instanceName d.name bindings newName
    result := result
    args := args
    template := none
    provenance := provenanceOf d.template d.name bindings }

/-- A function with its parameters bound. -/
def FunctionDecl.instantiate (d : FunctionDecl) (bindings : List TypeExpr)
    (newName : Option String) : Except ExpansionError FunctionDecl :=
  d.instantiateAt d.span bindings newName

/-! ## Variables -/

/-- A variable with its parameters bound. -/
def VariableDecl.instantiate (d : VariableDecl) (bindings : List TypeExpr)
    (newName : Option String) : Except ExpansionError VariableDecl := do
  let σ ← Substitution.bind d.name (paramNames d.template) bindings d.span
  let type ← resolved d.name d.span (σ.subst? d.type)
  pure { d with
    type := type
    name := instanceName d.name bindings newName
    template := none
    provenance := provenanceOf d.template d.name bindings }

/-! ## Forward declarations -/

/-- The parent of an instance. Without a template header, any types may be bound and the parent
stays: the template is declared elsewhere. -/
def ForwardDecl.instanceParent (span : Span) (d : ForwardDecl) (bindings : List TypeExpr) :
    Except ExpansionError (Option TypeExpr) :=
  match d.template with
  | some t => do
    let σ ← Substitution.bind d.name t.names bindings span
    resolved d.name d.span (σ.substOption? d.parent)
  | none => .ok d.parent

/-- A forward declaration with its parameters bound. A wrong number of types is reported at
`span`. -/
def ForwardDecl.instantiateAt (span : Span) (d : ForwardDecl) (bindings : List TypeExpr)
    (newName : Option String) : Except ExpansionError ForwardDecl := do
  let parent ← d.instanceParent span bindings
  pure { d with
    name := instanceName d.name bindings newName
    parent := parent
    template := none
    provenance :=
      if d.template.isSome || !bindings.isEmpty then some ⟨d.name, bindings⟩ else none }

/-- A forward declaration with its parameters bound. -/
def ForwardDecl.instantiate (d : ForwardDecl) (bindings : List TypeExpr)
    (newName : Option String) : Except ExpansionError ForwardDecl :=
  d.instantiateAt d.span bindings newName

end TemplateIdl
