import TemplateIdl.Decl
import TemplateIdl.Expand.Substitution
import TemplateIdl.Proofs.Expand.Instance

/-!
# Types — the type uses in declarations

* `TypeExpr.parts`, a type use and all its arguments, and `TypeExpr.mem_parts`, the part is the
  use itself or in an argument;
* `TypeExpr.IsPlaceholder`, the uses of `This` that stand for the enclosing class, and
  `TypeExpr.RefersTo`, a name in a place where names are replaced;
* `Declaration.types` and `contentTypes`, the type uses in declarations and inside of them.
-/

namespace TemplateIdl

/-! ## Parts of a type use -/

namespace TypeExpr

mutual

/-- A type use and its arguments at all depths. -/
def parts : TypeExpr → List TypeExpr
  | mk ns name args isConst sign isBasic =>
    mk ns name args isConst sign isBasic :: partsList args

/-- Several type uses and their arguments at all depths. -/
def partsList : List TypeExpr → List TypeExpr
  | [] => []
  | t :: ts => parts t ++ partsList ts

end

theorem mem_partsList {u : TypeExpr} {ts : List TypeExpr} :
    u ∈ partsList ts ↔ ∃ t ∈ ts, u ∈ t.parts := by
  induction ts with
  | nil => simp [partsList]
  | cons t ts ih => simp [partsList, ih]

/-- A part is the type use itself or a part of an argument. -/
theorem mem_parts {u t : TypeExpr} : u ∈ t.parts ↔ u = t ∨ ∃ a ∈ t.args, u ∈ a.parts := by
  cases t with
  | mk ns name args c i b => rw [parts, List.mem_cons, mem_partsList, TypeExpr.args]

theorem self_mem_parts (t : TypeExpr) : t ∈ t.parts := mem_parts.2 (.inl rfl)

/-- The bare name `This`, or a name with `This` among its namespaces: what stands for the
enclosing class, unless a parameter has that name. -/
def IsPlaceholder (t : TypeExpr) : Prop :=
  (t.namespaces = [] ∧ t.args = [] ∧ t.name = thisName) ∨ thisName ∈ t.namespaces

instance (t : TypeExpr) : Decidable t.IsPlaceholder :=
  inferInstanceAs (Decidable (_ ∨ _))

/-- A name with the property stands where names are replaced: as a segment of the path, or by
itself. -/
def RefersTo (p : String → Prop) (t : TypeExpr) : Prop :=
  (∃ s ∈ t.namespaces, p s) ∨ (t.namespaces = [] ∧ t.args = [] ∧ p t.name)

instance (p : String → Prop) [DecidablePred p] (t : TypeExpr) : Decidable (t.RefersTo p) :=
  inferInstanceAs (Decidable (_ ∨ _))

end TypeExpr

/-! ## Type uses in declarations -/

mutual

/-- The type uses in a declaration and inside of it. Those that headers list are not used yet. -/
def Declaration.types : Declaration → List TypeExpr
  | .space _ content _ => contentTypes content
  | .cls d => d.types
  | .forward d => d.parent.toList
  | .var d => [d.type]
  | .function d => d.result.types ++ argumentTypes d.args
  | .typedef d => d.target.args
  | .inclusion _ | .enumeration _ => []

/-- The type uses in several declarations and inside of them. -/
def contentTypes : List Declaration → List TypeExpr
  | [] => []
  | d :: ds => d.types ++ contentTypes ds

end

/-- The type uses in a file. -/
def Interface.types (m : Interface) : List TypeExpr := contentTypes m.content

end TemplateIdl
