import TemplateIdl.Expand.Class
import TemplateIdl.Expand.Free
import TemplateIdl.Expand.Index

/-!
# Expansion of interface files

Every template is replaced, in its place, by its instances, and every typedef by the instance
that it names.

- `expandListed`, the instances that a declaration stands for by itself
- `Target.expand` and `expandTypedef`, the instance that a typedef names
- `expandContent`, the declarations of a namespace
- `Interface.instantiate`, a whole file
-/

namespace TemplateIdl

/-- The instances of a declaration for the combinations that its header lists. -/
def expandListed (scope : List String) (d : Declaration) (template : Option Template)
    (make : List TypeExpr → Expansion Declaration) : Expansion (List Declaration) :=
  Expansion.forEach (fun bindings => do
    let x ← make bindings
    -- the names of the members are registered by now
    Expansion.register ⟨scope, x.name, describe d.name bindings, d.span⟩
    pure x) (combinationsOf template)

/-! ## Typedefs -/

/-- The instance of a target that a typedef at `span` names. -/
def Target.expand (span : Span) (bindings : List TypeExpr) (newName : String) :
    Target → Expansion Declaration
  | .cls d => do
    let x ← d.expand span bindings (some newName)
    pure (.cls x)
  | .function d => do
    let x ← .lift (d.instantiateAt span bindings (some newName))
    pure (.function x)
  | .forward d => do
    let x ← .lift (d.instantiateAt span bindings (some newName))
    pure (.forward x)

/-- The one target of a typedef. -/
def TypedefIndex.target (index : TypedefIndex) (d : TypedefDecl) :
    Except ExpansionError Target :=
  match index.resolve d.namespaces (d.target.namespaces ++ [d.target.name]) with
  | [] => .error ⟨.unresolvedTarget d.target.qualifiedName, d.span⟩
  | [t] => .ok t
  | ts => .error ⟨.ambiguousTarget d.target.qualifiedName ts.length, d.span⟩

/-- The instance that a typedef names. -/
def expandTypedef (index : TypedefIndex) (d : TypedefDecl) : Expansion Declaration := do
  let target ← .lift (index.target d)
  let x ← target.expand d.span d.target.args d.newName
  Expansion.register ⟨d.namespaces, d.newName, describe target.name d.target.args, d.span⟩
  pure x

/-! ## Declarations in their places -/

mutual

/-- What stands in the place of a declaration of `scope`. -/
def expandDeclaration (index : TypedefIndex) (scope : List String) :
    Declaration → Expansion (List Declaration)
  | .space name content span => do
    let inner ← expandContent index (scope ++ [name]) content
    pure [.space name inner span]
  | .cls d =>
    expandListed scope (.cls d) d.template fun bindings => do
      let x ← d.expand d.span bindings none
      pure (.cls x)
  | .function d =>
    expandListed scope (.function d) d.template fun bindings => do
      let x ← .lift (d.instantiate bindings none)
      pure (.function x)
  | .var d =>
    expandListed scope (.var d) d.template fun bindings => do
      let x ← .lift (d.instantiate bindings none)
      pure (.var x)
  | .forward d =>
    if d.template.isSome then
      expandListed scope (.forward d) d.template fun bindings => do
        let x ← .lift (d.instantiate bindings none)
        pure (.forward x)
    else pure [.forward d]
  | .typedef d => do
    let x ← expandTypedef index d
    pure [x]
  | .inclusion d => pure [.inclusion d]
  | .enumeration d => pure [.enumeration d]

/-- What stands in the place of the declarations of `scope`. -/
def expandContent (index : TypedefIndex) (scope : List String) :
    List Declaration → Expansion (List Declaration)
  | [] => pure []
  | d :: ds => do
    let here ← expandDeclaration index scope d
    let rest ← expandContent index scope ds
    pure (here ++ rest)

end

/-- A file in which every template and every typedef is replaced by instances. -/
def Interface.instantiate (policy : CollisionPolicy) (m : Interface) :
    Except ExpansionError Interface :=
  let index := TypedefIndex.ofContent m.content
  ((expandContent index [] m.content).settle policy).map Interface.mk

end TemplateIdl
