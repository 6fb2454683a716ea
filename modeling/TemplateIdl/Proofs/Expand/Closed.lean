import TemplateIdl.Proofs.Expand.Splice

/-!
# Closed — types in which nothing is left to replace

Names come into a type from three sources: from the types that are bound, from their texts, which
become segments of a path, and from the class. Where none of them is itself the name of a parameter
or `This`, one substitution is enough.

* `Substitution.Replaces`, the names that stand for something;
* `TypeExpr.IsRegular`, a type use with at most one such name in its path, `TypeExpr.IsForeign`, one
  without such names, and `TypeExpr.IsClosed`, one in which nothing is replaced;
* `Substitution.foreign_pathOf` and `Substitution.foreign_around`, the segments that come into a
  path and those that stay in it;
* `Substitution.closed_of_subst?` and `Substitution.exists_closed_subst?`, what is substituted in
  regular type uses is closed at all depths.
-/

namespace TemplateIdl

/-! ## Names that stand for something -/

/-- The names that stand for something else: the parameters and `This`. -/
def Substitution.Replaces (σ : Substitution) (s : String) : Prop := s ∈ σ.names ∨ s = thisName

instance (σ : Substitution) (s : String) : Decidable (σ.Replaces s) :=
  inferInstanceAs (Decidable (_ ∨ _))

namespace TypeExpr

variable {σ : Substitution} {t : TypeExpr}

/-- The path has no empty segment and at most one that stands for something, and a name without a
path but with arguments does not stand for anything. -/
def IsRegular (σ : Substitution) (u : TypeExpr) : Prop :=
  "" ∉ u.namespaces ∧ (u.namespaces.countP fun s => σ.Replaces s) ≤ 1 ∧
    (u.namespaces = [] → u.args ≠ [] → ¬ σ.Replaces u.name)

/-- Neither the name nor a segment of the path is empty or stands for something. -/
def IsForeign (σ : Substitution) (u : TypeExpr) : Prop :=
  ∀ s ∈ u.name :: u.namespaces, s ≠ "" ∧ ¬ σ.Replaces s

/-- No segment of the path stands for something, and neither does a name without a path, with
arguments or without. -/
def IsClosed (σ : Substitution) (u : TypeExpr) : Prop :=
  (∀ s ∈ u.namespaces, ¬ σ.Replaces s) ∧ (u.namespaces = [] → ¬ σ.Replaces u.name)

instance (σ : Substitution) (u : TypeExpr) : Decidable (u.IsRegular σ) :=
  inferInstanceAs (Decidable (_ ∧ _))

instance (σ : Substitution) (u : TypeExpr) : Decidable (u.IsForeign σ) :=
  inferInstanceAs (Decidable (∀ s ∈ u.name :: u.namespaces, _))

theorem IsForeign.isClosed (h : t.IsForeign σ) : t.IsClosed σ :=
  ⟨fun s hs => (h s (List.mem_cons_of_mem _ hs)).2, fun _ => (h t.name List.mem_cons_self).2⟩

/-- What holds of all parts holds of the type use and of the parts of its arguments. -/
theorem forall_mem_parts {P : TypeExpr → Prop} :
    (∀ u ∈ t.parts, P u) ↔ P t ∧ ∀ a ∈ t.args, ∀ u ∈ a.parts, P u := by
  constructor
  · intro h
    exact ⟨h t t.self_mem_parts, fun a ha u hu => h u (mem_parts.2 (.inr ⟨a, ha, hu⟩))⟩
  · intro h u hu
    rcases mem_parts.1 hu with rfl | ⟨a, ha, hu⟩
    · exact h.1
    · exact h.2 a ha u hu

end TypeExpr

namespace Substitution

variable {σ : Substitution} {cls : Typename} {t t' : TypeExpr}

/-! ## Paths -/

/-- The segments that a name becomes are as foreign as the name: with arguments the last one is no
identifier, and without arguments it is the name itself. -/
theorem foreign_pathOf (hnames : ∀ n ∈ σ.names, isIdentifier n = true)
    (h : t.IsForeign σ) : ∀ s ∈ pathOf t.typename, s ≠ "" ∧ ¬ σ.Replaces s := by
  obtain ⟨hname, hpath⟩ := List.forall_mem_cons.1 h
  refine List.forall_mem_append.2 ⟨hpath, List.forall_mem_singleton.2 ⟨?_, ?_⟩⟩
  · intro he
    exact hname.1 (Typename.templatedName_eq_empty.1 he).1
  · intro hr
    have hidentifier : isIdentifier t.typename.templatedName = true := by
      rcases hr with hr | hr
      · exact hnames _ hr
      · rw [hr]
        decide
    rw [Typename.templatedName_eq_name hidentifier] at hr
    exact hname.2 hr

/-- Where at most one segment has a property, those around one that has it do not. -/
theorem not_of_around {p : String → Prop} [DecidablePred p] {before after : List String}
    {s : String} (hone : (before ++ s :: after).countP (fun x => p x) ≤ 1) (hs : p s) :
    (∀ x ∈ before, ¬ p x) ∧ ∀ x ∈ after, ¬ p x := by
  rw [List.countP_append, List.countP_cons_of_pos (by simpa using hs)] at hone
  have hbefore : (before.countP fun x => p x) = 0 := by omega
  have hafter : (after.countP fun x => p x) = 0 := by omega
  constructor
  · intro x hx
    simpa using List.countP_eq_zero.1 hbefore x hx
  · intro x hx
    simpa using List.countP_eq_zero.1 hafter x hx

/-- In a regular path, all segments around the one that stands for something are foreign. -/
theorem foreign_around (h : t.IsRegular σ) {before after : List String} {s : String}
    (hs : σ.Replaces s) (hpath : t.namespaces = before ++ s :: after) :
    (∀ x ∈ before, x ≠ "" ∧ ¬ σ.Replaces x) ∧ ∀ x ∈ after, x ≠ "" ∧ ¬ σ.Replaces x := by
  obtain ⟨hempty, hone, -⟩ := h
  rw [hpath] at hempty hone
  obtain ⟨hbefore, hafter⟩ := not_of_around hone hs
  simp only [List.mem_append, List.mem_cons, not_or] at hempty
  constructor
  · intro x hx
    exact ⟨fun he => hempty.1 (he ▸ hx), hbefore x hx⟩
  · intro x hx
    exact ⟨fun he => hempty.2.2 (he ▸ hx), hafter x hx⟩

/-! ## Substituted type uses -/

/-- A foreign name is closed wherever it is put in. -/
theorem closed_rename_typename {u : TypeExpr} {isBasic : Bool}
    (h : ∀ v ∈ u.parts, v.IsForeign σ) :
    ∀ v ∈ (t.rename u.typename isBasic).parts, v.IsClosed σ := by
  obtain ⟨hname, hargs⟩ := TypeExpr.forall_mem_parts.1 h
  rw [TypeExpr.forall_mem_parts]
  exact ⟨hname.isClosed, fun a ha v hv => (hargs a ha v hv).isClosed⟩

/-- A name behind a foreign path is closed if its arguments are. -/
theorem closed_rename_ofPath {path : List String} {name : String} {args : List TypeExpr}
    {isBasic : Bool} (hpath : ∀ s ∈ path, s ≠ "" ∧ ¬ σ.Replaces s)
    (hname : path = [] → ¬ σ.Replaces name) (hargs : ∀ a ∈ args, ∀ u ∈ a.parts, u.IsClosed σ) :
    ∀ u ∈ (t.rename (.ofPath path name args) isBasic).parts, u.IsClosed σ := by
  have hempty : "" ∉ path := fun he => (hpath "" he).1 rfl
  rw [Typename.ofPath_of_not_mem hempty, TypeExpr.forall_mem_parts]
  exact ⟨⟨fun s hs => (hpath s hs).2, hname⟩, hargs⟩

/-- If the parameters are identifiers, and the types that are bound and the class are foreign at all
depths, then what is substituted in a regular type use is closed at all depths. -/
theorem closed_of_subst? (hnames : ∀ n ∈ σ.names, isIdentifier n = true)
    (hparams : ∀ q ∈ σ.params, ∀ u ∈ q.2.parts, u.IsForeign σ)
    (hcls : ∀ cls ∈ σ.this, ∀ u ∈ (TypeExpr.ofTypename cls false none).parts, u.IsForeign σ)
    (ht : ∀ u ∈ t.parts, u.IsRegular σ) (h : σ.subst? t = some t') :
    ∀ u ∈ t'.parts, u.IsClosed σ := by
  induction t using TypeExpr.induct generalizing t' with
  | mk ns name as c i b ih =>
    obtain ⟨hregular, hsub⟩ := TypeExpr.forall_mem_parts.1 ht
    obtain ⟨args, hargs, hreplace⟩ := subst?_eq_some.1 h
    have hclosed : ∀ a' ∈ args, ∀ u ∈ a'.parts, u.IsClosed σ := by
      intro a' ha'
      obtain ⟨a, ha, hsubst⟩ := exists_mem_of_forall₂ hargs.flip ha'
      exact ih a ha (hsub a ha) hsubst
    obtain ⟨new, isBasic, hreplaced, rfl⟩ := replaced_of_replace? hreplace
    cases hreplaced with
    | @segment before after bound hs =>
      obtain ⟨p, hp, hpath⟩ := scoped?_eq_some hs
      have hbound := foreign_pathOf hnames (hparams _ hp _ bound.self_mem_parts)
      obtain ⟨hbefore, hafter⟩ :=
        foreign_around hregular (.inl (List.mem_map.2 ⟨_, hp, rfl⟩)) hpath
      refine closed_rename_ofPath ?_ ?_ nofun
      · exact List.forall_mem_append.2 ⟨List.forall_mem_append.2 ⟨hbefore, hbound⟩, hafter⟩
      · intro hnil
        simp [pathOf_ne_nil] at hnil
    | param _ _ hget => exact closed_rename_typename (hparams _ (mem_of_get?_eq_some hget))
    | this _ _ _ _ hthis => exact closed_rename_typename (hcls _ hthis)
    | inner _ hs hthis =>
      have hclass := foreign_pathOf hnames (hcls _ hthis _ (TypeExpr.self_mem_parts _))
      obtain ⟨-, hafter⟩ := foreign_around hregular (.inr rfl) (splitAtFirst?_eq_some hs).1
      refine closed_rename_ofPath (List.forall_mem_append.2 ⟨hclass, hafter⟩) ?_ hclosed
      intro hnil
      simp [pathOf_ne_nil] at hnil
    | plain hp hbare hname hpath =>
      obtain ⟨hempty, -, happlied⟩ := hregular
      refine closed_rename_ofPath ?_ ?_ hclosed
      · intro s hs
        refine ⟨fun he => hempty (he ▸ hs), not_or.2 ⟨scoped?_eq_none.1 hp s hs, ?_⟩⟩
        exact fun he => hpath (he ▸ hs)
      · intro hns hr
        -- with arguments the name does not stand for anything, and without it would be replaced
        by_cases has : as = []
        · rcases hr with hr | hr
          · exact get?_eq_none.1 (hbare hns has) hr
          · exact hname ⟨hns, has, hr⟩
        · exact happlied hns has hr

/-- **Nothing is left to replace.** Inside a class whose type is foreign at all depths, with
identifiers for parameters that are bound to types of that kind, each regular type use can be
substituted, and at no depth of the result a name stands for a parameter or for `This`. -/
theorem exists_closed_subst? (hnames : ∀ n ∈ σ.names, isIdentifier n = true)
    (hparams : ∀ q ∈ σ.params, ∀ u ∈ q.2.parts, u.IsForeign σ) (hthis : σ.this = some cls)
    (hcls : ∀ u ∈ (TypeExpr.ofTypename cls false none).parts, u.IsForeign σ)
    (ht : ∀ u ∈ t.parts, u.IsRegular σ) :
    ∃ t', σ.subst? t = some t' ∧ ∀ u ∈ t'.parts, u.IsClosed σ := by
  obtain ⟨t', ht'⟩ := exists_subst? (by rw [hthis]; rfl) t
  refine ⟨t', ht', closed_of_subst? hnames hparams ?_ ht ht'⟩
  intro cls' h
  cases hthis.symm.trans h
  exact hcls

/-- A map from names behind a parameter to items of the class. -/
def keyed : TypeExpr :=
  .mk ["std"] "map" [.mk ["traits", "U", "Inner"] "Key" [.named "T"] false none false,
    .mk ["This"] "Item" [.named "T", .named "This"] true (some .ref) false, .named "U"] false none
    false

/-- All three sources of names come into the map, and nothing is left to replace in it. -/
theorem keyed_closed : ∃ t', (boxed.withThis ⟨["ns"], "Fun", [.named "double"]⟩).subst? keyed =
      some t' ∧
    t'.text = "std::map<traits::b::Box<const Grid<A*>, int>::Inner::Key, "
      ++ "const ns::Fun<double>::Item<V, ns::Fun<double>>&, b::Box<const Grid<A*>, int>>" ∧
    ∀ u ∈ t'.parts, u.IsClosed (boxed.withThis ⟨["ns"], "Fun", [.named "double"]⟩) := by
  obtain ⟨t', ht', hclosed⟩ := exists_closed_subst? (t := keyed)
    (σ := boxed.withThis ⟨["ns"], "Fun", [.named "double"]⟩) (by decide +kernel) (by decide +kernel)
    rfl (by decide +kernel) (by decide +kernel)
  refine ⟨t', ht', ?_, hclosed⟩
  have htext : ((boxed.withThis ⟨["ns"], "Fun", [.named "double"]⟩).subst? keyed).map
      TypeExpr.text = some ("std::map<traits::b::Box<const Grid<A*>, int>::Inner::Key, "
        ++ "const ns::Fun<double>::Item<V, ns::Fun<double>>&, b::Box<const Grid<A*>, int>>") := by
    decide +kernel
  rw [ht'] at htext
  exact Option.some.inj htext

end Substitution

end TemplateIdl
