import TemplateIdl.Decl.Class
import TemplateIdl.Expand.Expansion
import TemplateIdl.Expand.Naming
import TemplateIdl.Expand.Product
import TemplateIdl.Expand.Substitution

/-!
# Instances of classes

A class is made concrete with one type for each of its parameters. Members with a template
header of their own are made concrete once for each combination that the header lists; their
parameters come behind those of the class.

- `TemplatedMember`, the members that may have a header of their own
- `expandMember` and `expandMembers`, the instances of members
- `ClassDecl.expand`, the instance of a class with the names that its members generate
- `ClassDecl.instantiate`, the instance alone
-/

namespace TemplateIdl

/-! ## Members with a header of their own -/

/-- Members that may have a template header. -/
class TemplatedMember (μ : Type) where
  name : μ → String
  template : μ → Option Template
  span : μ → Span
  /-- The member with another name, owner and provenance, without a header and with its types
  substituted. -/
  concrete? : Substitution → Typename → String → Option Provenance → μ → Option μ

instance : TemplatedMember Constructor where
  name := Constructor.name
  template := Constructor.template
  span := Constructor.span
  concrete? σ owner name provenance d := do
    let args ← σ.substArguments? d.args
    some { d with
      name := name
      args := args
      owner := owner
      template := none
      provenance := provenance }

instance : TemplatedMember Method where
  name := Method.name
  template := Method.template
  span := Method.span
  concrete? σ owner name provenance d := do
    let result ← σ.substReturn? d.result
    let args ← σ.substArguments? d.args
    some { d with
      name := name
      result := result
      args := args
      owner := owner
      template := none
      provenance := provenance }

instance : TemplatedMember StaticMethod where
  name := StaticMethod.name
  template := StaticMethod.template
  span := StaticMethod.span
  concrete? σ owner name provenance d := do
    let result ← σ.substReturn? d.result
    let args ← σ.substArguments? d.args
    some { d with
      name := name
      result := result
      args := args
      owner := owner
      template := none
      provenance := provenance }

/-- What the members of an instance have in common. -/
structure ClassContext where
  /-- The bound parameters of the class, and the class as `This`. -/
  substitution : Substitution
  owner : Typename
  /-- The path of the namespaces with the name of the instance. -/
  scope : List String
deriving DecidableEq, Inhabited

section Members

variable {μ : Type} [TemplatedMember μ]

/-- One instance of a member. -/
def concreteMember (x : ClassContext) (σ : Substitution) (name : String)
    (provenance : Option Provenance) (m : μ) : Expansion μ :=
  .lift (resolved (TemplatedMember.name m) (TemplatedMember.span m)
    (TemplatedMember.concrete? σ x.owner name provenance m))

/-- The instances of a member, whose names begin with `base`. -/
def expandMember (x : ClassContext) (base : μ → String) (m : μ) : Expansion (List μ) :=
  match TemplatedMember.template m with
  | none => do
    let d ← concreteMember x x.substitution (base m) none m
    pure [d]
  | some t =>
    Expansion.forEach (fun bindings => do
      let name := generatedName (base m) bindings
      -- the name counts even if the types of the member then fail
      Expansion.register
        ⟨x.scope, name, describe (TemplatedMember.name m) bindings, TemplatedMember.span m⟩
      concreteMember x (x.substitution.extend t.names bindings) name
        (some ⟨TemplatedMember.name m, bindings⟩) m) t.combinations

/-- The instances of members in order. -/
def expandMembers (x : ClassContext) (base : μ → String) (ms : List μ) : Expansion (List μ) := do
  let groups ← Expansion.forEach (expandMember x base) ms
  pure groups.flatten

end Members

/-! ## Members without a header -/

/-- An operator of an instance. -/
def OperatorMethod.concrete? (x : ClassContext) (d : OperatorMethod) : Option OperatorMethod := do
  let result ← x.substitution.substReturn? d.result
  let args ← x.substitution.substArguments? d.args
  some { d with result := result, args := args, owner := x.owner }

/-- A property of an instance. -/
def VariableDecl.concrete? (x : ClassContext) (d : VariableDecl) : Option VariableDecl := do
  let type ← x.substitution.subst? d.type
  some { d with type := type, owner := some x.owner }

/-- A special method of an instance. -/
def SpecialMethod.concrete? (x : ClassContext) (d : SpecialMethod) : Option SpecialMethod := do
  let args ← x.substitution.substArguments? d.args
  some { d with args := args, owner := x.owner }

/-! ## Classes -/

namespace ClassDecl

/-- What the members of the instance called `name` have in common. -/
def context (c : ClassDecl) (σ : Substitution) (bindings : List TypeExpr) (name : String) :
    ClassContext :=
  let owner := Typename.ofPath c.namespaces c.name bindings
  ⟨σ.withThis owner, owner, c.namespaces ++ [name]⟩

/-- The instance of a class with the names that its members generate. A wrong number of types is
reported at `span`. -/
def expand (span : Span) (c : ClassDecl) (bindings : List TypeExpr) (newName : Option String) :
    Expansion ClassDecl := do
  let σ ← .lift (Substitution.bind c.name (paramNames c.template) bindings span)
  let name := instanceName c.name bindings newName
  let x := c.context σ bindings name
  let parent ← .lift (resolved c.name c.span (x.substitution.substOption? c.parent))
  let ctors ← expandMembers x (fun _ => name) c.ctors
  let methods ← expandMembers x Method.name c.methods
  let statics ← expandMembers x StaticMethod.name c.statics
  let operators ← Expansion.forEach
    (fun d => .lift (resolved d.name d.span (OperatorMethod.concrete? x d))) c.operators
  let properties ← Expansion.forEach
    (fun d => .lift (resolved d.name d.span (VariableDecl.concrete? x d))) c.properties
  let specials ← Expansion.forEach
    (fun d => .lift (resolved d.name d.span (SpecialMethod.concrete? x d))) c.specials
  pure { c with
    name := name
    template := none
    parent := parent
    ctors := ctors
    methods := methods
    statics := statics
    specials := specials
    operators := operators
    properties := properties
    provenance := provenanceOf c.template c.name bindings }

/-- The instance of a class. -/
def instantiate (c : ClassDecl) (bindings : List TypeExpr) (newName : Option String) :
    Except ExpansionError ClassDecl :=
  (c.expand c.span bindings newName).outcome

end ClassDecl

end TemplateIdl
