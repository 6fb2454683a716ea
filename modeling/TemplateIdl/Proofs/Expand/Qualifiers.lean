import TemplateIdl.Proofs.Expand.Closed

/-!
# Qualifiers — `const` and signs come from the place of use

A parameter can be bound to a type with `const` or with a sign behind it. Neither is put in: what
stands in the place of the parameter is qualified as the parameter was there.

* `Substitution.unqualified`, the bound types without their qualifiers, and
  `Substitution.subst?_unqualified`, nothing else is substituted with them;
* `Substitution.KeepsQualifiers`, a type use that is qualified like another one wherever names are
  not replaced;
* `Substitution.subst?_qualifiers`, so only the place of use decides.
-/

namespace TemplateIdl

/-- The type use without `const` and without a sign behind it. Its arguments keep theirs. -/
def TypeExpr.unqualified (t : TypeExpr) : TypeExpr := ofParts t.typename false none t.isBasic

namespace Substitution

variable {σ τ : Substitution}

/-! ## Qualifiers of bound types -/

/-- The substitution in which the bound types have no qualifiers. -/
def unqualified (σ : Substitution) : Substitution :=
  { σ with params := σ.params.map fun q => (q.1, q.2.unqualified) }

theorem get?_unqualified (name : String) :
    σ.unqualified.get? name = (σ.get? name).map TypeExpr.unqualified := by
  unfold get? unqualified
  rw [List.find?_map, Option.map_map, Option.map_map]
  rfl

theorem scoped?_unqualified (path : List String) :
    σ.unqualified.scoped? path =
      (σ.scoped? path).map fun s => (s.1, s.2.1.unqualified, s.2.2) := by
  unfold scoped? unqualified
  rw [List.findSome?_map, List.map_findSome?]
  simp only [Function.comp_def, Option.map_map]

/-- Of a bound type only the name is put in. -/
theorem replace?_unqualified (t : TypeExpr) (args : List TypeExpr) :
    σ.unqualified.replace? t args = σ.replace? t args := by
  unfold replace?
  rw [scoped?_unqualified]
  cases σ.scoped? t.namespaces with
  | some s => rfl
  | none =>
    dsimp only [Option.map_none]
    rw [get?_unqualified]
    cases t.namespaces.isEmpty && t.args.isEmpty with
    | false => rfl
    | true => cases σ.get? t.name <;> rfl

theorem subst?_unqualified (t : TypeExpr) : σ.unqualified.subst? t = σ.subst? t := by
  induction t using TypeExpr.induct with
  | mk ns name as c i b ih => exact subst?_congr (List.forall₂_same.2 ih) (replace?_unqualified _)

/-! ## Qualifiers in the place of use -/

/-- The type use `t'` has the qualifiers of `t`. Where `t` refers to no parameter and not to `This`,
it also has as many arguments, and they have the qualifiers of those of `t`. -/
inductive KeepsQualifiers (σ : Substitution) : TypeExpr → TypeExpr → Prop
  | mk {t t' : TypeExpr} (hconst : t'.isConst = t.isConst)
      (hsign : t'.indirection = t.indirection)
      (hargs : ¬ t.RefersTo σ.Replaces → List.Forall₂ (KeepsQualifiers σ) t.args t'.args) :
      KeepsQualifiers σ t t'

/-- Where the name is not replaced, the arguments are those that have been substituted. -/
theorem Replaced.args_eq {t : TypeExpr} {args : List TypeExpr} {new : Typename} {isBasic : Bool}
    (h : Replaced σ t args new isBasic) (ht : ¬ t.RefersTo σ.Replaces) : new.args = args := by
  obtain ⟨hpath, hbare⟩ := not_or.1 ht
  cases h with
  | segment hs =>
    obtain ⟨s, hs, he⟩ := scoped?_eq_some hs
    refine absurd ⟨s, ?_, .inl (List.mem_map_of_mem hs)⟩ hpath
    rw [he]
    exact List.mem_append_right _ List.mem_cons_self
  | param hns has hget =>
    exact absurd ⟨hns, has, .inl (List.mem_map_of_mem (mem_of_get?_eq_some hget))⟩ hbare
  | this hns has hn => exact absurd ⟨hns, has, .inr hn⟩ hbare
  | inner _ hs =>
    refine absurd ⟨thisName, ?_, .inr rfl⟩ hpath
    rw [(splitAtFirst?_eq_some hs).1]
    exact List.mem_append_right _ List.mem_cons_self
  | plain => exact Typename.ofPath_args ..

theorem keepsQualifiers_of_subst? {t t' : TypeExpr} (h : σ.subst? t = some t') :
    σ.KeepsQualifiers t t' := by
  induction t using TypeExpr.induct generalizing t' with
  | mk ns name as c i b ih =>
    obtain ⟨args, hargs, hreplace⟩ := subst?_eq_some.1 h
    obtain ⟨new, isBasic, hreplaced, rfl⟩ := replaced_of_replace? hreplace
    refine .mk rfl rfl fun ht => ?_
    have hnew : (TypeExpr.rename (.mk ns name as c i b) new isBasic).args = args :=
      hreplaced.args_eq ht
    rw [hnew]
    have hboth := (List.forall₂_and_left _ _).2 ⟨fun a ha a' => @ih a ha a', hargs⟩
    exact hboth.imp fun a a' haa' => haa'.1 a' haa'.2

/-- **Only the place of use decides on qualifiers.** With two substitutions that differ in nothing
but the `const` and the signs of the bound types, the same becomes of a type use. It keeps its own
qualifiers, and unless its name is replaced it keeps the number of its arguments, too, for which the
same holds one by one. -/
theorem subst?_qualifiers (h : σ.unqualified = τ.unqualified) (t : TypeExpr) :
    σ.subst? t = τ.subst? t ∧ ∀ t', σ.subst? t = some t' → σ.KeepsQualifiers t t' := by
  constructor
  · calc σ.subst? t
      _ = σ.unqualified.subst? t := (subst?_unqualified t).symm
      _ = τ.unqualified.subst? t := by rw [h]
      _ = τ.subst? t := subst?_unqualified t
  · intro t' ht'
    exact keepsQualifiers_of_subst? ht'

/-- A vector with the qualifiers given. Those of its elements are fixed. -/
def vectorOf (isConst : Bool) (sign : Option Indirection) : TypeExpr :=
  .mk ["std"] "vector" [.mk [] "A" [] false (some .shared) false] isConst sign false

/-- A constant reference for `T` and a pointer for `U`. -/
def lent : Substitution :=
  ⟨[("T", vectorOf true (some .ref)), ("U", .mk [] "B" [] false (some .raw) false)],
    some ⟨["ns"], "Fun", []⟩⟩

/-- The types that `lent` binds, one as a value and one as a constant. -/
def handed : Substitution :=
  ⟨[("T", vectorOf false none), ("U", .mk [] "B" [] true none false)], some ⟨["ns"], "Fun", []⟩⟩

/-- Uses of both parameters and of `This`, each with qualifiers of its own. -/
def ledger : TypeExpr :=
  .mk ["std"] "pair" [.mk [] "T" [] false (some .raw) false,
    .mk ["std"] "map" [.mk ["U"] "Key" [] false (some .ref) false, .mk [] "This" [] true none false]
      false (some .shared) false] true (some .ref) false

/-- The qualifiers of the bound types are nowhere in the result, and those of the uses all are. -/
theorem ledger_qualifiers : lent ≠ handed ∧ ∃ t', lent.subst? ledger = some t' ∧
    handed.subst? ledger = some t' ∧
    t'.text = "const std::pair<std::vector<A*>@, std::map<B::Key&, const ns::Fun>*>&" ∧
    lent.KeepsQualifiers ledger t' := by
  obtain ⟨hsame, hkeeps⟩ := subst?_qualifiers (σ := lent) (τ := handed) (by decide +kernel) ledger
  obtain ⟨t', ht'⟩ := exists_subst? (σ := lent) rfl ledger
  have htext : (lent.subst? ledger).map TypeExpr.text =
      some "const std::pair<std::vector<A*>@, std::map<B::Key&, const ns::Fun>*>&" := by
    decide +kernel
  rw [ht'] at htext
  exact ⟨by decide, t', ht', hsame.symm.trans ht', Option.some.inj htext, hkeeps t' ht'⟩

end Substitution

end TemplateIdl
