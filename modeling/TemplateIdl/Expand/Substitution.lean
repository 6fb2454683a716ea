import TemplateIdl.Decl.Signature
import TemplateIdl.Diagnostic.Expansion

/-!
# Substitution — types for template parameters and for `This`

- `Substitution`, the types bound to parameters and the class that `This` stands for
- `Substitution.extend` and `Substitution.bind`, binding parameters
- `Substitution.subst?`, a type use with everything substituted; it only fails where `This`
  stands for no class
- `Substitution.substArguments?` and `Substitution.substReturn?`, the same for signatures

Parameters come before `This`, and parameters declared first come before the others.
-/

namespace TemplateIdl

/-- The name that stands for the enclosing class. -/
def thisName : String := "This"

/-- The types that names stand for. -/
structure Substitution where
  /-- The bound parameters in declared order. -/
  params : List (String × TypeExpr)
  /-- The enclosing class, if there is one. -/
  this : Option Typename
deriving DecidableEq, Inhabited

/-- A list cut at the first place of `x`: what stands before and what stands behind. -/
def splitAtFirst? {α : Type} [DecidableEq α] (x : α) : List α → Option (List α × List α)
  | [] => none
  | y :: ys => if y = x then some ([], ys) else (splitAtFirst? x ys).map fun s => (y :: s.1, s.2)

theorem splitAtFirst?_eq_some {α : Type} [DecidableEq α] {x : α} {xs before after : List α}
    (h : splitAtFirst? x xs = some (before, after)) :
    xs = before ++ x :: after ∧ x ∉ before := by
  induction xs generalizing before with
  | nil => simp [splitAtFirst?] at h
  | cons y ys ih =>
    unfold splitAtFirst? at h
    split at h
    · next hy => cases h; simp [hy]
    · next hy =>
      obtain ⟨⟨b, a⟩, hs, he⟩ := Option.map_eq_some_iff.1 h
      cases he
      obtain ⟨rfl, hb⟩ := ih hs
      exact ⟨rfl, by simp [hb, Ne.symm hy]⟩

theorem splitAtFirst?_eq_none {α : Type} [DecidableEq α] {x : α} {xs : List α} :
    splitAtFirst? x xs = none ↔ x ∉ xs := by
  induction xs with
  | nil => simp [splitAtFirst?]
  | cons y ys ih =>
    unfold splitAtFirst?
    split
    · next hy => simp [hy]
    · next hy => simp [ih, Ne.symm hy]

namespace Substitution

/-- Nothing is bound. -/
def empty : Substitution := ⟨[], none⟩

/-- The substitution in which `This` stands for a class. -/
def withThis (σ : Substitution) (t : Typename) : Substitution := { σ with this := some t }

/-- The substitution with more parameters behind the others. -/
def extend (σ : Substitution) (names : List String) (types : List TypeExpr) : Substitution :=
  { σ with params := σ.params ++ names.zip types }

/-- The parameters of the template `name` bound to `types`, of which there must be as many. -/
def bind (name : String) (params : List String) (types : List TypeExpr) (span : Span) :
    Except ExpansionError Substitution :=
  if params.length = types.length then .ok (empty.extend params types)
  else .error ⟨.arityMismatch name params.length types.length, span⟩

/-- The type bound to a parameter. -/
def get? (σ : Substitution) (name : String) : Option TypeExpr :=
  (σ.params.find? fun p => p.1 == name).map Prod.snd

/-- The first parameter, in declared order, that is a segment of a path: the segments before
it, the type bound to it and the segments behind it. -/
def scoped? (σ : Substitution) (path : List String) :
    Option (List String × TypeExpr × List String) :=
  σ.params.findSome? fun p => (splitAtFirst? p.1 path).map fun s => (s.1, p.2, s.2)

/-! ## Types -/

/-- The segments that a name becomes inside a path: its namespaces, and the name itself with its
arguments as one segment. -/
def pathOf (t : Typename) : List String := t.namespaces ++ [t.templatedName]

/-- What the type use `t` becomes, whose arguments become `args`. The qualifiers of `t` stay,
and those of bound types are dropped. In order: a parameter as a segment of the path, the bare
name of a parameter, the bare name `This`, `This` as a segment of the path. -/
def replace? (σ : Substitution) (t : TypeExpr) (args : List TypeExpr) : Option TypeExpr :=
  match σ.scoped? t.namespaces with
  | some (before, bound, after) =>
    -- a parameter in the path: what it is bound to takes its place there
    some (t.rename (.ofPath (before ++ pathOf bound.typename ++ after) t.name []) false)
  | none =>
    let isBare := t.namespaces.isEmpty && t.args.isEmpty
    match if isBare then σ.get? t.name else none with
    | some bound =>
      -- the bare name of a parameter
      some (t.rename bound.typename bound.isBasic)
    | none =>
      if isBare && t.name == thisName then
        -- the bare name `This`
        σ.this.map fun this => t.rename this false
      else
        match splitAtFirst? thisName t.namespaces with
        | some (_, after) =>
          -- `This` in the path opens a new path, and what stands before it is dropped
          σ.this.map fun this => t.rename (.ofPath (pathOf this ++ after) t.name args) false
        | none => some (t.rename (.ofPath t.namespaces t.name args) t.isBasic)

mutual

/-- A type use with everything substituted; none if `This` stands for no class. -/
def subst? (σ : Substitution) : TypeExpr → Option TypeExpr
  | .mk ns name args isConst indirection isBasic => do
    let args' ← substList? σ args
    σ.replace? (.mk ns name args isConst indirection isBasic) args'

/-- Several type uses with everything substituted. -/
def substList? (σ : Substitution) : List TypeExpr → Option (List TypeExpr)
  | [] => some []
  | t :: ts => do
    let t' ← subst? σ t
    let ts' ← substList? σ ts
    some (t' :: ts')

end

/-! ## Signatures -/

/-- Arguments with their types substituted. Names and defaults stay. -/
def substArguments? (σ : Substitution) : List Argument → Option (List Argument)
  | [] => some []
  | a :: as => do
    let type ← σ.subst? a.type
    let as' ← substArguments? σ as
    some ({ a with type := type } :: as')

/-- A result with its types substituted. -/
def substReturn? (σ : Substitution) : ReturnType → Option ReturnType
  | .single t => do
    let t' ← σ.subst? t
    some (.single t')
  | .pair s t => do
    let s' ← σ.subst? s
    let t' ← σ.subst? t
    some (.pair s' t')

/-- A type that may be missing, substituted. -/
def substOption? (σ : Substitution) : Option TypeExpr → Option (Option TypeExpr)
  | none => some none
  | some t => do
    let t' ← σ.subst? t
    some (some t')

end Substitution

/-- What was substituted in the declaration `name` at `span`; without a value, `This` is at
fault. -/
def resolved {α : Type} (name : String) (span : Span) (x : Option α) :
    Except ExpansionError α :=
  match x with
  | some a => .ok a
  | none => .error ⟨.unresolvedSelf name, span⟩

end TemplateIdl
