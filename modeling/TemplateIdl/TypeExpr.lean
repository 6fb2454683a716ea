/-!
# TypeExpr — uses of types

A type use names a type by a path of namespaces, a base name and template arguments, which are
type uses again, and qualifies it by `const` and at most one pointer or reference sign.

- `Indirection`, the pointer and reference signs
- `TypeExpr`, a type use, and `Typename`, the name in it without the qualifiers
- `Typename.ofPath` and `TypeExpr.ofTypename`, built from written parts
- `TypeExpr.induct`, induction over a type use and all its arguments
-/

namespace TemplateIdl

/-- The signs behind a type name. -/
inductive Indirection where
  /-- `*`, a pointer with shared ownership. -/
  | shared
  /-- `@`, a raw pointer. -/
  | raw
  /-- `&`, a reference. -/
  | ref
deriving DecidableEq, Inhabited

/-- The use of a type. `isBasic` tells that the name was meant as that of a built-in type. -/
inductive TypeExpr where
  | mk (namespaces : List String) (name : String) (args : List TypeExpr) (isConst : Bool)
      (indirection : Option Indirection) (isBasic : Bool)
deriving Inhabited

/-- The name of a type without qualifiers. -/
structure Typename where
  /-- Enclosing namespaces, outermost first. -/
  namespaces : List String
  name : String
  /-- Template arguments in order. -/
  args : List TypeExpr
deriving Inhabited

namespace TypeExpr

/-! ## Parts -/

/-- Enclosing namespaces, outermost first. -/
def namespaces : TypeExpr → List String
  | mk ns _ _ _ _ _ => ns

/-- The base name. -/
def name : TypeExpr → String
  | mk _ n _ _ _ _ => n

/-- Template arguments in order. -/
def args : TypeExpr → List TypeExpr
  | mk _ _ as _ _ _ => as

/-- Whether `const` stands in front. -/
def isConst : TypeExpr → Bool
  | mk _ _ _ c _ _ => c

/-- The sign behind the name. -/
def indirection : TypeExpr → Option Indirection
  | mk _ _ _ _ i _ => i

/-- Whether the name was meant as that of a built-in type. -/
def isBasic : TypeExpr → Bool
  | mk _ _ _ _ _ b => b

/-- The name without the qualifiers. -/
def typename (t : TypeExpr) : Typename := ⟨t.namespaces, t.name, t.args⟩

/-- The type use of a name with the qualifiers given. -/
def ofParts (t : Typename) (isConst : Bool) (indirection : Option Indirection)
    (isBasic : Bool) : TypeExpr :=
  mk t.namespaces t.name t.args isConst indirection isBasic

/-- The use `t` with another name in it: the qualifiers stay. -/
def rename (t : TypeExpr) (name : Typename) (isBasic : Bool) : TypeExpr :=
  ofParts name t.isConst t.indirection isBasic

/-- Whether template arguments are given. -/
def isTemplated (t : TypeExpr) : Bool := !t.args.isEmpty

/-- Whether the use is a pointer with shared ownership. -/
def isShared (t : TypeExpr) : Bool := t.indirection == some .shared

/-- Whether the use is a raw pointer. -/
def isRaw (t : TypeExpr) : Bool := t.indirection == some .raw

/-- Whether the use is a reference. -/
def isRef (t : TypeExpr) : Bool := t.indirection == some .ref

/-! ## Induction -/

/-- What holds of a type use whenever it holds of its arguments holds of all type uses. -/
@[elab_as_elim] theorem induct {motive : TypeExpr → Prop}
    (mk : ∀ ns n as c i b, (∀ a ∈ as, motive a) → motive (.mk ns n as c i b))
    (t : TypeExpr) : motive t :=
  @TypeExpr.rec motive (fun as => ∀ a ∈ as, motive a) mk
    (fun _ ha => absurd ha List.not_mem_nil)
    (fun _ _ hh ht a ha => (List.mem_cons.1 ha).elim (fun e => e ▸ hh) (ht a)) t

/-! ## Equality is decidable -/

mutual

/-- Decides whether two type uses are the same. -/
def decEq : (s t : TypeExpr) → Decidable (s = t)
  | mk ns n as c i b, mk ns' n' as' c' i' b' =>
    match decEqList as as' with
    | isTrue h =>
      decidable_of_iff (ns = ns' ∧ n = n' ∧ c = c' ∧ i = i' ∧ b = b') (by subst h; simp)
    | isFalse h => isFalse fun e => h (congrArg args e)

/-- Decides whether two lists of type uses are the same. -/
def decEqList : (ss ts : List TypeExpr) → Decidable (ss = ts)
  | [], [] => isTrue rfl
  | [], _ :: _ => isFalse nofun
  | _ :: _, [] => isFalse nofun
  | s :: ss, t :: ts =>
    match decEq s t, decEqList ss ts with
    | isTrue h, isTrue h' => isTrue (by rw [h, h'])
    | isFalse h, _ => isFalse fun e => h (List.cons.inj e).1
    | _, isFalse h => isFalse fun e => h (List.cons.inj e).2

end

instance : DecidableEq TypeExpr := decEq

end TypeExpr

deriving instance DecidableEq for Typename

/-- The names of the built-in types. -/
def basicTypeNames : List String :=
  ["void", "bool", "unsigned char", "char", "int", "size_t", "double", "float"]

namespace Typename

/-- The name written `segments::name<args>`. An empty first segment, which a leading `::`
leaves behind, is dropped. -/
def ofPath (segments : List String) (name : String) (args : List TypeExpr) : Typename :=
  match segments with
  | "" :: rest => ⟨rest, name, args⟩
  | _ => ⟨segments, name, args⟩

/-- A name without namespaces and arguments. -/
def simple (name : String) : Typename := ⟨[], name, []⟩

/-- Whether template arguments are given. -/
def isTemplated (t : Typename) : Bool := !t.args.isEmpty

/-- Whether the name is that of a built-in type. -/
def isBasic (t : Typename) : Bool :=
  t.namespaces.isEmpty && t.args.isEmpty && basicTypeNames.contains t.name

end Typename

namespace TypeExpr

/-- The use of a name with qualifiers; whether the type is built in follows from the name. -/
def ofTypename (t : Typename) (isConst : Bool) (indirection : Option Indirection) : TypeExpr :=
  ofParts t isConst indirection t.isBasic

/-- The use of a name without namespaces, arguments and qualifiers. -/
def named (name : String) : TypeExpr :=
  ofTypename (.simple name) false none

end TypeExpr

end TemplateIdl
