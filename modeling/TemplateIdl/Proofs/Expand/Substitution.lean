import Mathlib.Data.List.Forall2
import TemplateIdl.Expand.Substitution

/-!
# Substitution — what becomes of a type use

* `Substitution.scoped?_eq_none` and `Substitution.scoped?_eq_some`, which parameter is found in a
  path;
* `Substitution.scoped?_extend` and `Substitution.get?_extend`, what is found among more parameters;
* `Substitution.replace?_of_segment` and the four equations behind it, one for each way to substitute
  in a type use whose arguments are done;
* `Substitution.Replaced`, the five ways to substitute in a type use whose arguments are done, and
  `Substitution.replaced_of_replace?`, there are no others;
* `Substitution.subst?_eq_some`, a type use after its arguments;
* `Substitution.replace?_congr` and `Substitution.subst?_congr`, all that the result depends on;
* `Substitution.exists_subst?`, inside a class every type use becomes another one.
-/

namespace TemplateIdl

namespace Substitution

variable {σ : Substitution}

/-! ## Parameters -/

/-- The names of the bound parameters in declared order. -/
def names (σ : Substitution) : List String := σ.params.map Prod.fst

theorem get?_eq_none {name : String} : σ.get? name = none ↔ name ∉ σ.names := by
  simp only [get?, Option.map_eq_none_iff, List.find?_eq_none, beq_iff_eq, names, List.mem_map,
    not_exists, not_and]

theorem mem_of_get?_eq_some {name : String} {bound : TypeExpr} (h : σ.get? name = some bound) :
    (name, bound) ∈ σ.params := by
  obtain ⟨p, hp, rfl⟩ := Option.map_eq_some_iff.1 h
  have hname : p.1 = name := by simpa using List.find?_some hp
  rw [← hname]
  exact List.mem_of_find?_eq_some hp

theorem scoped?_eq_none {path : List String} :
    σ.scoped? path = none ↔ ∀ s ∈ path, s ∉ σ.names := by
  simp only [scoped?, List.findSome?_eq_none_iff, Option.map_eq_none_iff, splitAtFirst?_eq_none,
    names, List.mem_map]
  constructor
  · intro h s hs hp
    obtain ⟨p, hp, rfl⟩ := hp
    exact h p hp hs
  · intro h p hp hs
    exact h p.1 hs ⟨p, hp, rfl⟩

/-- The parameter that is found splits the path. -/
theorem scoped?_eq_some {path before after : List String} {bound : TypeExpr}
    (h : σ.scoped? path = some (before, bound, after)) :
    ∃ name, (name, bound) ∈ σ.params ∧ path = before ++ name :: after := by
  obtain ⟨p, hp, hsplit⟩ := List.exists_of_findSome?_eq_some h
  obtain ⟨s, hs, he⟩ := Option.map_eq_some_iff.1 hsplit
  cases he
  exact ⟨p.1, hp, (splitAtFirst?_eq_some hs).1⟩

/-- In a path of one segment, the parameter is that segment. -/
theorem scoped?_singleton (name : String) :
    σ.scoped? [name] = (σ.get? name).map fun bound => ([], bound, []) := by
  unfold scoped? get?
  induction σ.params with
  | nil => rfl
  | cons p ps ih =>
    by_cases hp : p.1 = name
    · simp [splitAtFirst?, hp]
    · simpa [splitAtFirst?, hp, Ne.symm hp] using ih

theorem names_extend_subset (names : List String) (types : List TypeExpr) :
    (σ.extend names types).names ⊆ σ.names ++ names := by
  intro n hn
  obtain ⟨q, hq, rfl⟩ := List.mem_map.1 hn
  rcases List.mem_append.1 hq with hq | hq
  · exact List.mem_append_left _ (List.mem_map.2 ⟨q, hq, rfl⟩)
  · exact List.mem_append_right _ (List.of_mem_zip hq).1

/-- Parameters that come behind others only count where none of those is found. -/
theorem scoped?_extend (names : List String) (types : List TypeExpr) (path : List String) :
    (σ.extend names types).scoped? path =
      (σ.scoped? path).or ((empty.extend names types).scoped? path) :=
  List.findSome?_append

theorem get?_extend (names : List String) (types : List TypeExpr) (name : String) :
    (σ.extend names types).get? name =
      (σ.get? name).or ((empty.extend names types).get? name) := by
  unfold get?
  rw [← Option.map_or, ← List.find?_append]
  rfl

/-! ## One type use -/

section Equations

variable {t : TypeExpr}

theorem replace?_of_segment {before after : List String} {bound : TypeExpr}
    (h : σ.scoped? t.namespaces = some (before, bound, after)) (args : List TypeExpr) :
    σ.replace? t args =
      some (t.rename (.ofPath (before ++ pathOf bound.typename ++ after) t.name []) false) := by
  unfold replace?
  rw [h]

/-- No parameter is a segment of an empty path. -/
theorem scoped?_nil (h : t.namespaces = []) : σ.scoped? t.namespaces = none :=
  scoped?_eq_none.2 (by simp [h])

theorem replace?_of_param {bound : TypeExpr} (hns : t.namespaces = []) (has : t.args = [])
    (h : σ.get? t.name = some bound) (args : List TypeExpr) :
    σ.replace? t args = some (t.rename bound.typename bound.isBasic) := by
  unfold replace?
  rw [scoped?_nil hns]
  simp [hns, has, h]

theorem replace?_of_this (hns : t.namespaces = []) (has : t.args = []) (hn : t.name = thisName)
    (hp : σ.get? t.name = none) (args : List TypeExpr) :
    σ.replace? t args = σ.this.map fun cls => t.rename cls false := by
  unfold replace?
  rw [scoped?_nil hns, hp]
  simp [hns, has, hn]

theorem replace?_of_inner {before after : List String} (hp : σ.scoped? t.namespaces = none)
    (hs : splitAtFirst? thisName t.namespaces = some (before, after)) (args : List TypeExpr) :
    σ.replace? t args =
      σ.this.map fun cls => t.rename (.ofPath (pathOf cls ++ after) t.name args) false := by
  have hne : t.namespaces ≠ [] := by
    rw [(splitAtFirst?_eq_some hs).1]
    simp
  unfold replace?
  rw [hp, hs]
  simp [hne]

theorem replace?_of_plain (hp : σ.scoped? t.namespaces = none)
    (hbare : t.namespaces = [] → t.args = [] → σ.get? t.name = none)
    (hname : ¬ (t.namespaces = [] ∧ t.args = [] ∧ t.name = thisName))
    (hpath : thisName ∉ t.namespaces) (args : List TypeExpr) :
    σ.replace? t args = some (t.rename (.ofPath t.namespaces t.name args) t.isBasic) := by
  unfold replace?
  rw [hp, splitAtFirst?_eq_none.2 hpath]
  by_cases hempty : t.namespaces = [] ∧ t.args = []
  · have hne : t.name ≠ thisName := fun h => hname ⟨hempty.1, hempty.2, h⟩
    simp [hempty, hbare hempty.1 hempty.2, hne]
  · have hnot : (t.namespaces.isEmpty && t.args.isEmpty) = false := by simpa using hempty
    simp [hnot]

end Equations

/-- How the name in the type use `t` is replaced, whose arguments have become `args`, and whether
the new name is meant as that of a built-in type. -/
inductive Replaced (σ : Substitution) (t : TypeExpr) (args : List TypeExpr) :
    Typename → Bool → Prop
  /-- A parameter is a segment of the path. -/
  | segment {before after : List String} {bound : TypeExpr}
      (h : σ.scoped? t.namespaces = some (before, bound, after)) :
      Replaced σ t args (.ofPath (before ++ pathOf bound.typename ++ after) t.name []) false
  /-- The name is that of a parameter. -/
  | param {bound : TypeExpr} (hns : t.namespaces = []) (has : t.args = [])
      (h : σ.get? t.name = some bound) : Replaced σ t args bound.typename bound.isBasic
  /-- The name stands for the enclosing class. -/
  | this {cls : Typename} (hns : t.namespaces = []) (has : t.args = []) (hn : t.name = thisName)
      (hp : σ.get? t.name = none) (h : σ.this = some cls) : Replaced σ t args cls false
  /-- The enclosing class is a segment of the path. -/
  | inner {before after : List String} {cls : Typename} (hp : σ.scoped? t.namespaces = none)
      (hs : splitAtFirst? thisName t.namespaces = some (before, after)) (h : σ.this = some cls) :
      Replaced σ t args (.ofPath (pathOf cls ++ after) t.name args) false
  /-- Only the arguments are replaced. -/
  | plain (hp : σ.scoped? t.namespaces = none)
      (hbare : t.namespaces = [] → t.args = [] → σ.get? t.name = none)
      (hname : ¬ (t.namespaces = [] ∧ t.args = [] ∧ t.name = thisName))
      (hpath : thisName ∉ t.namespaces) :
      Replaced σ t args (.ofPath t.namespaces t.name args) t.isBasic

theorem replaced_of_replace? {t t' : TypeExpr} {args : List TypeExpr}
    (h : σ.replace? t args = some t') :
    ∃ name isBasic, Replaced σ t args name isBasic ∧ t' = t.rename name isBasic := by
  cases hscoped : σ.scoped? t.namespaces with
  | some s =>
    obtain ⟨before, bound, after⟩ := s
    rw [replace?_of_segment hscoped] at h
    exact ⟨_, _, .segment hscoped, (Option.some.inj h).symm⟩
  | none =>
    by_cases hbound : t.namespaces = [] ∧ t.args = [] ∧ ∃ bound, σ.get? t.name = some bound
    · obtain ⟨hns, has, bound, hget⟩ := hbound
      rw [replace?_of_param hns has hget] at h
      exact ⟨_, _, .param hns has hget, (Option.some.inj h).symm⟩
    · have hbare : t.namespaces = [] → t.args = [] → σ.get? t.name = none := by
        intro hns has
        rw [Option.eq_none_iff_forall_ne_some]
        exact fun bound hget => hbound ⟨hns, has, bound, hget⟩
      by_cases hname : t.namespaces = [] ∧ t.args = [] ∧ t.name = thisName
      · obtain ⟨hns, has, hn⟩ := hname
        rw [replace?_of_this hns has hn (hbare hns has)] at h
        obtain ⟨cls, hcls, rfl⟩ := Option.map_eq_some_iff.1 h
        exact ⟨_, _, .this hns has hn (hbare hns has) hcls, rfl⟩
      · cases hthis : splitAtFirst? thisName t.namespaces with
        | some s =>
          obtain ⟨before, after⟩ := s
          rw [replace?_of_inner hscoped hthis] at h
          obtain ⟨cls, hcls, rfl⟩ := Option.map_eq_some_iff.1 h
          exact ⟨_, _, .inner hscoped hthis hcls, rfl⟩
        | none =>
          have hpath := splitAtFirst?_eq_none.1 hthis
          rw [replace?_of_plain hscoped hbare hname hpath] at h
          exact ⟨_, _, .plain hscoped hbare hname hpath, (Option.some.inj h).symm⟩

/-- Inside a class, no type use is left without a replacement. -/
theorem exists_replace? (h : σ.this.isSome = true) (t : TypeExpr) (args : List TypeExpr) :
    ∃ t', σ.replace? t args = some t' := by
  obtain ⟨cls, hcls⟩ := Option.isSome_iff_exists.1 h
  rw [← Option.isSome_iff_exists]
  unfold replace?
  split
  · rfl
  · dsimp only
    split
    · rfl
    · split
      · simp [hcls]
      · split
        · simp [hcls]
        · rfl

/-- What a type use becomes depends on the class, and on the types that are found for its path and
for its bare name. Of its own arguments only counts whether there are any. -/
theorem replace?_congr {τ : Substitution} {ns : List String} {name : String} {as bs : List TypeExpr}
    {isConst : Bool} {sign : Option Indirection} {isBasic : Bool} (hthis : σ.this = τ.this)
    (hscoped : σ.scoped? ns = τ.scoped? ns)
    (hget : ns = [] → as = [] → σ.get? name = τ.get? name) (hempty : as = [] ↔ bs = [])
    (args : List TypeExpr) :
    σ.replace? (.mk ns name as isConst sign isBasic) args =
      τ.replace? (.mk ns name bs isConst sign isBasic) args := by
  have hbare : as.isEmpty = bs.isEmpty := by
    rw [Bool.eq_iff_iff, List.isEmpty_iff, List.isEmpty_iff]
    exact hempty
  have hfound : (if ns.isEmpty && bs.isEmpty then σ.get? name else none) =
      if ns.isEmpty && bs.isEmpty then τ.get? name else none := by
    split
    · next h =>
      rw [Bool.and_eq_true, List.isEmpty_iff, List.isEmpty_iff] at h
      exact hget h.1 (hempty.2 h.2)
    · rfl
  simp only [replace?, TypeExpr.namespaces, TypeExpr.name, TypeExpr.args, hbare, hfound, hscoped,
    hthis]
  rfl

/-! ## Type uses with their arguments -/

theorem substList?_eq_some {ts us : List TypeExpr} :
    σ.substList? ts = some us ↔ List.Forall₂ (fun t u => σ.subst? t = some u) ts us := by
  induction ts generalizing us with
  | nil => simp [substList?, eq_comm]
  | cons t ts ih =>
    simp only [substList?, Option.bind_eq_bind, Option.bind_eq_some_iff, Option.some.injEq]
    constructor
    · intro h
      obtain ⟨u, hu, us', hus, rfl⟩ := h
      exact .cons hu (ih.1 hus)
    · intro h
      cases h with
      | cons hu hus => exact ⟨_, hu, _, ih.2 hus, rfl⟩

/-- The arguments of a type use come first, then the use itself. -/
theorem subst?_eq_some {t t' : TypeExpr} :
    σ.subst? t = some t' ↔ ∃ args, List.Forall₂ (fun a a' => σ.subst? a = some a') t.args args ∧
      σ.replace? t args = some t' := by
  cases t with
  | mk ns n as c i b =>
    simp only [subst?, Option.bind_eq_bind, Option.bind_eq_some_iff, substList?_eq_some,
      TypeExpr.args]

/-- Two type uses become the same if their arguments do, and if with the same arguments they do. -/
theorem subst?_congr {τ : Substitution} {t u : TypeExpr}
    (hargs : List.Forall₂ (fun a b => σ.subst? a = τ.subst? b) t.args u.args)
    (h : ∀ args, σ.replace? t args = τ.replace? u args) : σ.subst? t = τ.subst? u := by
  have hlist : ∀ as bs, List.Forall₂ (fun a b => σ.subst? a = τ.subst? b) as bs →
      σ.substList? as = τ.substList? bs := by
    intro as bs hs
    induction hs with
    | nil => rfl
    | cons ha _ ih => rw [substList?, substList?, ha, ih]
  cases t with
  | mk ns name as c i b =>
    cases u with
    | mk ns' name' bs c' i' b' => simp only [subst?, hlist as bs hargs, h]

/-- What can be done with each element can be done with all of them. -/
theorem exists_forall₂ {α β : Type} {R : α → β → Prop} {as : List α} (h : ∀ a ∈ as, ∃ b, R a b) :
    ∃ bs, List.Forall₂ R as bs := by
  induction as with
  | nil => exact ⟨[], .nil⟩
  | cons a as ih =>
    rw [List.forall_mem_cons] at h
    obtain ⟨b, hb⟩ := h.1
    obtain ⟨bs, hbs⟩ := ih h.2
    exact ⟨b :: bs, .cons hb hbs⟩

/-- Inside a class, substitution never fails. -/
theorem exists_subst? (h : σ.this.isSome = true) (t : TypeExpr) : ∃ t', σ.subst? t = some t' := by
  induction t using TypeExpr.induct with
  | mk ns n as c i b ih =>
    obtain ⟨args, hargs⟩ := exists_forall₂ ih
    obtain ⟨t', ht'⟩ := exists_replace? h (.mk ns n as c i b) args
    exact ⟨t', subst?_eq_some.2 ⟨args, hargs, ht'⟩⟩

end Substitution

end TemplateIdl
