import TemplateIdl.Proofs.Expand.Uses
import TemplateIdl.Wrap

/-!
# This — where the placeholder stays

Inside a class, `This` stands for the class. In an expanded file it should not be left.

* `TypeExpr.IsThis` and `TypeExpr.HasThis`, the name `This` or a namespace of that name in a type
  use, or in one of its arguments;
* `Substitution.KeepsThis`, the six ways to get a type with `This` by substitution, and
  `Substitution.keepsThis_of_hasThis`, there are no others;
* `Interface.exists_hasThis_iff`, so which files have a type with `This` in them when they are
  expanded;
* `TypeExpr.PlainThis` and `Declaration.PlainThis`, where every `This` stands for the class alone,
  and `Interface.not_hasThis_of_plainThis`, then none is left;
* `Interface.not_forall_not_hasThis`, there is one although nothing is declared with that name.
-/

namespace TemplateIdl

/-! ## Type uses with the placeholder -/

namespace TypeExpr

/-- The name `This` without namespaces, with arguments or without, or any name with `This` among
its namespaces. -/
def IsThis (t : TypeExpr) : Prop :=
  (t.namespaces = [] ∧ t.name = thisName) ∨ thisName ∈ t.namespaces

instance (t : TypeExpr) : Decidable t.IsThis :=
  inferInstanceAs (Decidable (_ ∨ _))

/-- A type use is such a name, or one of its arguments at some depth is. -/
def HasThis (t : TypeExpr) : Prop := ∃ u ∈ t.parts, u.IsThis

instance (t : TypeExpr) : Decidable t.HasThis :=
  inferInstanceAs (Decidable (∃ u ∈ t.parts, u.IsThis))

theorem hasThis_iff {t : TypeExpr} : t.HasThis ↔ t.IsThis ∨ ∃ a ∈ t.args, a.HasThis := by
  constructor
  · intro h
    obtain ⟨u, hu, hthis⟩ := h
    rcases mem_parts.1 hu with rfl | ⟨a, ha, hu⟩
    · exact .inl hthis
    · exact .inr ⟨a, ha, u, hu, hthis⟩
  · intro h
    rcases h with h | ⟨a, ha, u, hu, hthis⟩
    · exact ⟨t, self_mem_parts t, h⟩
    · exact ⟨u, mem_parts.2 (.inr ⟨a, ha, hu⟩), hthis⟩

/-- Qualifiers do not matter. -/
theorem hasThis_congr {t u : TypeExpr} (h : t.typename = u.typename) :
    t.HasThis ↔ u.HasThis := by
  obtain ⟨hns, hname, hargs⟩ := (Typename.mk.injEq ..).mp h
  rw [hasThis_iff, hasThis_iff, IsThis, IsThis, hns, hname, hargs]

theorem hasThis_rename {t : TypeExpr} {name : Typename} {isBasic : Bool} :
    (t.rename name isBasic).HasThis ↔ (ofTypename name false none).HasThis :=
  hasThis_congr (t := t.rename name isBasic) (u := ofTypename name false none) rfl

theorem hasThis_ofTypename {t : TypeExpr} : (ofTypename t.typename false none).HasThis ↔ t.HasThis :=
  hasThis_congr (t := ofTypename t.typename false none) (u := t) rfl

end TypeExpr

/-- A first segment that is dropped is not `This`. -/
theorem Typename.mem_ofPath_namespaces {path : List String} {name : String}
    {args : List TypeExpr} : thisName ∈ (ofPath path name args).namespaces ↔ thisName ∈ path := by
  unfold ofPath
  split
  · have hne : thisName ≠ "" := by decide
    simp [hne]
  · rfl

theorem TypeExpr.hasThis_rename_ofPath {t : TypeExpr} {path : List String} {name : String}
    {args : List TypeExpr} {isBasic : Bool} :
    (t.rename (.ofPath path name args) isBasic).HasThis ↔
      (((path = [] ∨ path = [""]) ∧ name = thisName) ∨ thisName ∈ path) ∨
        ∃ a ∈ args, a.HasThis := by
  have hnil : (Typename.ofPath path name args).namespaces = [] ↔ path = [] ∨ path = [""] :=
    Typename.ofPath_namespaces_eq_nil
  have hmem : thisName ∈ (Typename.ofPath path name args).namespaces ↔ thisName ∈ path :=
    Typename.mem_ofPath_namespaces
  refine hasThis_iff.trans ?_
  show (_ ∧ (Typename.ofPath path name args).name = thisName ∨ _) ∨
    (∃ a ∈ (Typename.ofPath path name args).args, a.HasThis) ↔ _
  rw [← hnil, ← hmem, Typename.ofPath_name, Typename.ofPath_args]
  exact Iff.rfl

/-! ## Substituted type uses -/

namespace Substitution

/-- How a type with `This` comes from a type use when something is substituted in it. -/
inductive KeepsThis (σ : Substitution) : TypeExpr → Prop
  /-- A parameter in a path, next to `This` or bound to it. -/
  | segment {t bound : TypeExpr} {before after : List String}
      (h : σ.scoped? t.namespaces = some (before, bound, after))
      (hthis : thisName ∈ before ++ pathOf bound.typename ++ after) : KeepsThis σ t
  /-- The name of a parameter that is bound to a type with `This`. -/
  | param {t bound : TypeExpr} (hns : t.namespaces = []) (has : t.args = [])
      (h : σ.get? t.name = some bound) (hb : bound.HasThis) : KeepsThis σ t
  /-- The class, where its own type has `This` in it. -/
  | cls {t : TypeExpr} {cls : Typename} (hns : t.namespaces = []) (has : t.args = [])
      (hn : t.name = thisName) (hp : σ.get? t.name = none) (h : σ.this = some cls)
      (hcls : (TypeExpr.ofTypename cls false none).HasThis) : KeepsThis σ t
  /-- The class in a path with `This` once more behind it, or in its own path. -/
  | inner {t : TypeExpr} {before after : List String} {cls : Typename}
      (hp : σ.scoped? t.namespaces = none)
      (hs : splitAtFirst? thisName t.namespaces = some (before, after)) (h : σ.this = some cls)
      (hthis : thisName ∈ pathOf cls ++ after) : KeepsThis σ t
  /-- `This` with arguments, which does not stand for the class. -/
  | applied {t : TypeExpr} (hns : t.namespaces = []) (has : t.args ≠ []) (hn : t.name = thisName) :
      KeepsThis σ t
  /-- An argument; those behind a parameter in the path are dropped. -/
  | arg {t a : TypeExpr} (hp : σ.scoped? t.namespaces = none) (ha : a ∈ t.args)
      (h : KeepsThis σ a) : KeepsThis σ t

variable {σ : Substitution} {t : TypeExpr}

/-- Each of the ways leads to `This`. -/
theorem KeepsThis.hasThis (h : σ.KeepsThis t) {t' : TypeExpr} (hsubst : σ.subst? t = some t') :
    t'.HasThis := by
  induction h generalizing t' with
  | segment h hthis =>
    obtain ⟨args, -, hreplace⟩ := subst?_eq_some.1 hsubst
    rw [replace?_of_segment h] at hreplace
    cases hreplace
    exact TypeExpr.hasThis_rename_ofPath.2 (.inl (.inr hthis))
  | param hns has h hb =>
    obtain ⟨args, -, hreplace⟩ := subst?_eq_some.1 hsubst
    rw [replace?_of_param hns has h] at hreplace
    cases hreplace
    exact TypeExpr.hasThis_rename.2 (TypeExpr.hasThis_ofTypename.2 hb)
  | cls hns has hn hp h hcls =>
    obtain ⟨args, -, hreplace⟩ := subst?_eq_some.1 hsubst
    rw [replace?_of_this hns has hn hp, h] at hreplace
    cases hreplace
    exact TypeExpr.hasThis_rename.2 hcls
  | inner hp hs h hthis =>
    obtain ⟨args, -, hreplace⟩ := subst?_eq_some.1 hsubst
    rw [replace?_of_inner hp hs, h] at hreplace
    cases hreplace
    exact TypeExpr.hasThis_rename_ofPath.2 (.inl (.inr hthis))
  | @applied t hns has hn =>
    obtain ⟨args, -, hreplace⟩ := subst?_eq_some.1 hsubst
    have hbare : t.namespaces = [] → t.args = [] → σ.get? t.name = none := fun _ h => absurd h has
    have hname : ¬ (t.namespaces = [] ∧ t.args = [] ∧ t.name = thisName) := fun h => has h.2.1
    rw [replace?_of_plain (scoped?_nil hns) hbare hname (by simp [hns])] at hreplace
    cases hreplace
    exact TypeExpr.hasThis_rename_ofPath.2 (.inl (.inl ⟨.inl hns, hn⟩))
  | @arg t a hp ha _ ih =>
    obtain ⟨args, hargs, hreplace⟩ := subst?_eq_some.1 hsubst
    -- the argument is kept, whatever becomes of the name in front of it
    have hkept : ∃ a' ∈ args, a'.HasThis := by
      obtain ⟨a', ha', hsub⟩ := exists_mem_of_forall₂ hargs ha
      exact ⟨a', ha', ih hsub⟩
    have hne : t.args ≠ [] := List.ne_nil_of_mem ha
    cases hthis : splitAtFirst? thisName t.namespaces with
    | some s =>
      rw [replace?_of_inner hp hthis] at hreplace
      obtain ⟨cls, -, rfl⟩ := Option.map_eq_some_iff.1 hreplace
      exact TypeExpr.hasThis_rename_ofPath.2 (.inr hkept)
    | none =>
      have hbare : t.namespaces = [] → t.args = [] → σ.get? t.name = none := fun _ h => absurd h hne
      have hname : ¬ (t.namespaces = [] ∧ t.args = [] ∧ t.name = thisName) := fun h => hne h.2.1
      rw [replace?_of_plain hp hbare hname (splitAtFirst?_eq_none.1 hthis)] at hreplace
      cases hreplace
      exact TypeExpr.hasThis_rename_ofPath.2 (.inr hkept)

/-- There are no other ways. -/
theorem keepsThis_of_hasThis (hσ : σ.Named) {inArgs : Bool} (ht : t.WellFormed inArgs)
    {t' : TypeExpr} (hsubst : σ.subst? t = some t') (h : t'.HasThis) : σ.KeepsThis t := by
  revert t'
  refine ht.induct_mk (motive := fun t => ∀ {t'}, σ.subst? t = some t' → t'.HasThis →
    σ.KeepsThis t) ?_
  intro ns name as c i b hidentifiers _ _ ih t' hsubst h
  obtain ⟨args, hargs, hreplace⟩ := subst?_eq_some.1 hsubst
  have harg : (∃ a' ∈ args, a'.HasThis) → ∃ a ∈ as, σ.KeepsThis a := by
    intro h
    obtain ⟨a', ha', hthis⟩ := h
    obtain ⟨a, ha, hsub⟩ := exists_mem_of_forall₂ hargs.flip ha'
    exact ⟨a, ha, ih a ha hsub hthis⟩
  obtain ⟨new, isBasic, hreplaced, rfl⟩ := replaced_of_replace? hreplace
  cases hreplaced with
  | @segment before after bound hs =>
    rcases TypeExpr.hasThis_rename_ofPath.1 h with (⟨hpath, -⟩ | hmem) | ⟨a, ha, -⟩
    · -- the path is that of a type with a name
      obtain ⟨space, hparam, -⟩ := scoped?_eq_some hs
      exact absurd (segment_eq_empty.1 hpath).2.2 (hσ.params _ hparam)
    · exact .segment hs hmem
    · cases ha
  | param hns has hget =>
    exact .param hns has hget (TypeExpr.hasThis_ofTypename.1 (TypeExpr.hasThis_rename.1 h))
  | this hns has hn hp hcls => exact .cls hns has hn hp hcls (TypeExpr.hasThis_rename.1 h)
  | @inner before after cls hp hs hcls =>
    rcases TypeExpr.hasThis_rename_ofPath.1 h with (⟨hpath, -⟩ | hmem) | hkept
    · have hempty := (@segment_eq_empty [] after cls).1 hpath
      exact absurd hempty.2.2 (hσ.this _ hcls)
    · exact .inner hp hs hcls hmem
    · obtain ⟨a, ha, hk⟩ := harg hkept
      exact .arg hp ha hk
  | plain hp hbare hname hpath =>
    rcases TypeExpr.hasThis_rename_ofPath.1 h with (⟨hempty, hn⟩ | hmem) | hkept
    · have hns : ns = [] := by
        rcases hempty with hns | hns
        · exact hns
        · change ns = [""] at hns
          exact absurd (hidentifiers "" (by simp [hns])) (by decide)
      have has : as ≠ [] := fun has => hname ⟨hns, has, hn⟩
      exact .applied hns has hn
    · exact absurd hmem hpath
    · obtain ⟨a, ha, hk⟩ := harg hkept
      exact .arg hp ha hk

end Substitution

/-! ## Whole files -/

/-- A type use that becomes one with `This` in it: where it is copied, it has `This` in it itself. -/
def TypeUse.KeepsThis : TypeUse → Prop
  | .copied t => t.HasThis
  | .bound σ t => σ.KeepsThis t

theorem TypeUse.Written.hasThis_iff_keepsThis {u : TypeUse} (h : u.Written) {t : TypeExpr}
    (ht : u.Becomes t) : t.HasThis ↔ u.KeepsThis := by
  cases ht with
  | copied t => exact Iff.rfl
  | bound hsubst =>
    cases h with
    | bound hσ hwf =>
      constructor
      · exact Substitution.keepsThis_of_hasThis hσ hwf hsubst
      · exact fun hk => hk.hasThis hsubst

namespace Interface

theorem wrap_ok {policy : CollisionPolicy} {source : String} {out : Interface}
    (h : wrap policy source = .ok out) :
    ∃ m, parse source = .ok m ∧ m.instantiate policy = .ok out := by
  obtain ⟨m, hm, h⟩ := except_bind_ok h
  cases hparse : parse source with
  | error es =>
    rw [hparse] at hm
    cases hm
  | ok m' =>
    rw [hparse] at hm
    cases hm
    refine ⟨m, rfl, ?_⟩
    cases hout : m.instantiate policy with
    | error e =>
      rw [hout] at h
      cases h
    | ok out' =>
      rw [hout] at h
      cases h
      rfl

/-- When a text is parsed and expanded, `This` is left in a type exactly if a type use of the text
keeps it in one of the ways that `KeepsThis` lists. -/
theorem exists_hasThis_iff {policy : CollisionPolicy} {source : String} {out : Interface}
    (h : wrap policy source = .ok out) :
    ∃ m, parse source = .ok m ∧
      ((∃ t ∈ out.types, t.HasThis) ↔ ∃ u ∈ m.uses, u.KeepsThis) := by
  obtain ⟨m, hm, hout⟩ := wrap_ok h
  refine ⟨m, hm, ?_⟩
  have hwritten := written_of_mem_uses hm
  apply exists_mem_iff_of_forall₂ (types_of_instantiate hout)
  intro u hu t ht
  exact (hwritten u hu).hasThis_iff_keepsThis ht

end Interface

/-! ## Files that leave none -/

namespace TypeExpr

variable {s : String} {t : TypeExpr}

theorem contains_iff : t.Contains s ↔ t.name = s ∨ s ∈ t.namespaces ∨ ∃ a ∈ t.args, a.Contains s := by
  constructor
  · intro h
    cases h with
    | name => exact .inl rfl
    | space h => exact .inr (.inl h)
    | arg h ha => exact .inr (.inr ⟨_, h, ha⟩)
  · intro h
    obtain ⟨ns, name, args, c, i, b⟩ := t
    rcases h with h | h | ⟨a, h, ha⟩
    · cases h
      exact .name
    · exact .space h
    · exact .arg h ha

theorem HasThis.contains (h : t.HasThis) : t.Contains thisName := by
  induction t using TypeExpr.induct with
  | mk ns name args c i b ih =>
    rcases hasThis_iff.1 h with (⟨-, hname⟩ | hmem) | ⟨a, ha, hthis⟩
    · exact contains_iff.2 (.inl hname)
    · exact .space hmem
    · exact .arg ha (ih a ha hthis)

/-- A name that becomes the segment `This` is `This` itself, since that is a word. -/
theorem contains_of_mem_pathOf (h : thisName ∈ Substitution.pathOf t.typename) :
    t.Contains thisName := by
  rcases List.mem_append.1 h with h | h
  · exact contains_iff.2 (.inr (.inl h))
  · have hname := List.mem_singleton.1 h
    have hplain : t.typename.templatedName = t.name := by
      apply Typename.templatedName_eq_name
      rw [← hname]
      decide
    exact contains_iff.2 (.inl (hname.trans hplain).symm)

/-- Every `This` stands for the class alone: it has no arguments, and in a path it stands once and
beside none of the parameters. -/
def PlainThis (params : List String) (t : TypeExpr) : Prop :=
  ∀ u ∈ t.parts, ¬ (u.namespaces = [] ∧ u.args ≠ [] ∧ u.name = thisName) ∧
    (thisName ∈ u.namespaces →
      u.namespaces.count thisName = 1 ∧ ∀ s ∈ u.namespaces, s ∉ params)

theorem PlainThis.mono {params params' : List String} (h : t.PlainThis params)
    (hsub : params' ⊆ params) : t.PlainThis params' := by
  intro u hu
  obtain ⟨happlied, hpath⟩ := h u hu
  refine ⟨happlied, fun hmem => ?_⟩
  obtain ⟨hcount, hparams⟩ := hpath hmem
  exact ⟨hcount, fun s hs hp => hparams s hs (hsub hp)⟩

theorem PlainThis.arg {params : List String} (h : t.PlainThis params) {a : TypeExpr}
    (ha : a ∈ t.args) : a.PlainThis params :=
  fun u hu => h u (mem_parts.2 (.inr ⟨a, ha, hu⟩))

end TypeExpr

namespace Substitution

variable {σ : Substitution} {t : TypeExpr}

/-- Where the types that are bound do not name `This`, and neither does that of the class, no `This`
is kept that stands for the class alone. -/
theorem not_keepsThis (hparams : ∀ q ∈ σ.params, ¬ q.2.Contains thisName)
    (hcls : ∀ cls ∈ σ.this, ¬ (TypeExpr.ofTypename cls false none).Contains thisName)
    (ht : t.PlainThis σ.names) : ¬ σ.KeepsThis t := by
  intro h
  induction h with
  | @segment t bound before after h hthis =>
    obtain ⟨space, hparam, hpath⟩ := scoped?_eq_some h
    have hname : space ∈ σ.names := List.mem_map.2 ⟨_, hparam, rfl⟩
    have hbeside : thisName ∉ t.namespaces := by
      intro hmem
      obtain ⟨-, hapart⟩ := (ht t t.self_mem_parts).2 hmem
      exact hapart space (by simp [hpath]) hname
    rcases List.mem_append.1 hthis with hthis | hthis
    · rcases List.mem_append.1 hthis with hthis | hthis
      · exact hbeside (by simp [hpath, hthis])
      · exact hparams _ hparam (TypeExpr.contains_of_mem_pathOf hthis)
    · exact hbeside (by simp [hpath, hthis])
  | param _ _ h hb => exact hparams _ (mem_of_get?_eq_some h) hb.contains
  | cls _ _ _ _ h hb => exact hcls _ h hb.contains
  | @inner t before after cls _ hs h hthis =>
    rcases List.mem_append.1 hthis with hthis | hthis
    · exact hcls _ h (TypeExpr.contains_of_mem_pathOf hthis)
    · -- the path has `This` in it once, and this is the one in front
      have hpath := (splitAtFirst?_eq_some hs).1
      obtain ⟨hcount, -⟩ := (ht t t.self_mem_parts).2 (by simp [hpath])
      have hpos := List.count_pos_iff.2 hthis
      rw [hpath, List.count_append, List.count_cons_self] at hcount
      omega
  | @applied t hns has hn => exact (ht t t.self_mem_parts).1 ⟨hns, has, hn⟩
  | arg _ ha _ ih => exact ih (ht.arg ha)

end Substitution

mutual

/-- The names of namespaces, classes and template parameters in a declaration. -/
def Declaration.scopeNames : Declaration → List String
  | .space name content _ => name :: contentScopeNames content
  | .cls d =>
    d.name :: (paramNames d.template ++ d.members.flatMap fun m => paramNames m.template)
  | .forward d => d.name :: paramNames d.template
  | .var d => paramNames d.template
  | .function d => paramNames d.template
  | .inclusion _ | .enumeration _ | .typedef _ => []

/-- The names of namespaces, classes and template parameters in several declarations. -/
def contentScopeNames : List Declaration → List String
  | [] => []
  | d :: ds => d.scopeNames ++ contentScopeNames ds

end

namespace Declaration

/-- The headers of a declaration and of its members. -/
def headers : Declaration → List Template
  | .cls d => d.template.toList ++ d.members.flatMap fun m => m.template.toList
  | .forward d => d.template.toList
  | .var d => d.template.toList
  | .function d => d.template.toList
  | .inclusion _ | .space _ _ _ | .enumeration _ | .typedef _ => []

/-- In a declaration, every `This` stands for the class alone, and what is bound or copied does not
name it. -/
structure PlainThis (d : Declaration) : Prop where
  listed : ∀ h ∈ d.headers, ∀ q ∈ h.params, ∀ t ∈ q.choices, ¬ t.Contains thisName
  aliased : ∀ a, d = .typedef a → ∀ t ∈ a.target.args, ¬ t.Contains thisName
  copied : ∀ f, d = .forward f → f.template = none → ∀ t ∈ f.parent, ¬ t.HasThis
  types : ∀ t ∈ d.types, t.PlainThis (d.headers.flatMap Template.names)

end Declaration

/-- What is bound in an instance of a header, where nothing that is bound names `This`. -/
theorem not_keepsThis_of_mem_headerUses {template : Option Template} {bindings ts : List TypeExpr}
    (hb : ∀ b ∈ bindings, ¬ b.Contains thisName)
    (hts : ∀ t ∈ ts, t.PlainThis (paramNames template)) :
    ∀ u ∈ headerUses template bindings ts, ¬ u.KeepsThis := by
  intro u hu
  obtain ⟨t, ht, rfl⟩ := List.mem_map.1 hu
  have hnames := @Substitution.names_extend_subset .empty (paramNames template) bindings
  refine Substitution.not_keepsThis ?_ nofun ((hts t ht).mono hnames)
  intro q hq
  exact hb q.2 (List.of_mem_zip hq).2

/-- In the uses of a class, what is bound is bound by the class or listed in the header of a member,
and the class is written with its namespaces and its bindings. -/
theorem ClassDecl.not_keepsThis_of_mem_uses {c : ClassDecl} {bindings : List TypeExpr}
    (hname : c.name ≠ thisName) (hpath : thisName ∉ c.namespaces)
    (hplain : (Declaration.cls c).PlainThis) (hb : ∀ b ∈ bindings, ¬ b.Contains thisName) :
    ∀ u ∈ Target.uses bindings (.cls c), ¬ u.KeepsThis := by
  intro u hu
  obtain ⟨s, hs, rfl⟩ := List.mem_map.1 hu
  obtain ⟨htype, names, types, hbound, htypes, hnames⟩ := mem_uses hs
  have hheaders : ∀ m ∈ c.members, ∀ t ∈ m.template, t ∈ (Declaration.cls c).headers := by
    intro m hm t ht
    exact List.mem_append_right _ (List.mem_flatMap.2 ⟨m, hm, Option.mem_toList.2 ht⟩)
  show ¬ s.1.KeepsThis s.2
  rw [hbound]
  apply Substitution.not_keepsThis
  · intro q hq
    rcases List.mem_append.1 hq with hq | hq
    · exact hb q.2 (List.of_mem_zip hq).2
    · obtain ⟨m, hm, t, ht, r, hr, hchoice⟩ := htypes q.2 (List.of_mem_zip hq).2
      exact hplain.listed t (hheaders m hm t ht) r hr q.2 hchoice
  · intro cls hcls
    cases hcls
    rw [TypeExpr.contains_iff]
    intro h
    rcases h with h | h | ⟨a, ha, h⟩
    · exact hname ((Typename.ofPath_name _ _ _).symm.trans h)
    · exact hpath (Typename.mem_ofPath_namespaces.1 h)
    · change a ∈ (Typename.ofPath c.namespaces c.name bindings).args at ha
      rw [Typename.ofPath_args] at ha
      exact hb a ha h
  · apply (hplain.types s.2 htype).mono
    intro n hn
    rcases List.mem_append.1 (Substitution.names_extend_subset names types hn) with hn | hn
    · have hown := Substitution.names_extend_subset (paramNames c.template) bindings hn
      cases ht : c.template with
      | none =>
        rw [ht] at hown
        cases hown
      | some t =>
        rw [ht] at hown
        have hheader : t ∈ (Declaration.cls c).headers :=
          List.mem_append_left _ (Option.mem_toList.2 ht)
        exact List.mem_flatMap.2 ⟨t, hheader, hown⟩
    · obtain ⟨m, hm, t, ht, hn⟩ := hnames n hn
      exact List.mem_flatMap.2 ⟨t, hheaders m hm t ht, hn⟩

theorem paramNames_subset {template : Option Template} {headers : List Template}
    (h : ∀ t ∈ template, t ∈ headers) : paramNames template ⊆ headers.flatMap Template.names := by
  intro n hn
  cases template with
  | none => cases hn
  | some t => exact List.mem_flatMap.2 ⟨t, h t rfl, hn⟩

/-- The uses in a target, where neither the declaration nor a namespace around it is called `This`
and nothing that is bound names it. -/
theorem Target.not_keepsThis {d : Declaration} {t : Target}
    (h : Target.ofDeclaration? d = some t) {path : List String} (hd : d.Scoped path)
    (hpath : thisName ∉ path) (hnames : thisName ∉ d.scopeNames) (hplain : d.PlainThis)
    {bindings : List TypeExpr} (hb : ∀ b ∈ bindings, ¬ b.Contains thisName) :
    ∀ u ∈ t.uses bindings, ¬ u.KeepsThis := by
  cases d with
  | cls c =>
    cases h
    have hname : c.name ≠ thisName := fun he => hnames (he ▸ List.mem_cons_self)
    exact c.not_keepsThis_of_mem_uses hname (hd.namespaces ▸ hpath) hplain hb
  | function f =>
    cases h
    apply not_keepsThis_of_mem_headerUses hb
    intro t ht
    exact (hplain.types t ht).mono (paramNames_subset fun t ht => Option.mem_toList.2 ht)
  | forward f =>
    cases h
    rw [uses]
    split
    · apply not_keepsThis_of_mem_headerUses hb
      intro t ht
      exact (hplain.types t ht).mono (paramNames_subset fun t ht => Option.mem_toList.2 ht)
    · next hnone =>
      intro u hu
      obtain ⟨t, ht, rfl⟩ := List.mem_map.1 hu
      exact hplain.copied f rfl (by simpa using hnone) t (Option.mem_toList.1 ht)
  | _ => cases h

/-- The names around a declaration in a file and in it are names in the file. -/
theorem Content.Has.scopeNames {ds : Content} {path : List String} {d : Declaration}
    (h : ds.Has path d) :
    path ⊆ contentScopeNames ds ∧ d.scopeNames ⊆ contentScopeNames ds := by
  have hmem : ∀ {ds : Content} {d : Declaration}, d ∈ ds →
      d.scopeNames ⊆ contentScopeNames ds := by
    intro ds d hd
    induction ds with
    | nil => cases hd
    | cons e ds ih =>
      rw [contentScopeNames]
      rcases List.mem_cons.1 hd with rfl | hd
      · exact List.subset_append_left _ _
      · exact List.Subset.trans (ih hd) (List.subset_append_right _ _)
  induction h with
  | here hd => exact ⟨List.nil_subset _, hmem hd⟩
  | @inside ds content name span path d hs _ ih =>
    have hspace := hmem hs
    rw [Declaration.scopeNames, List.cons_subset] at hspace
    have hpath := List.Subset.trans ih.1 hspace.2
    exact ⟨List.cons_subset.2 ⟨hspace.1, hpath⟩, List.Subset.trans ih.2 hspace.2⟩

/-- What a plain declaration binds by itself does not name `This`. -/
theorem Declaration.PlainThis.not_contains {d : Declaration} (h : d.PlainThis)
    {template : Option Template} (ht : ∀ t ∈ template, t ∈ d.headers) {bindings : List TypeExpr}
    (hb : bindings ∈ combinationsOf template) : ∀ b ∈ bindings, ¬ b.Contains thisName := by
  intro b hmem
  obtain ⟨header, hheader, q, hq, hchoice⟩ := exists_choices_of_mem_combinations hb b hmem
  exact h.listed header (ht header hheader) q hq b hchoice

section Plain

variable {content : Content} (hscoped : ∀ path d, content.Has path d → d.Scoped path)
  (hnames : thisName ∉ contentScopeNames content)
  (hplain : ∀ path d, content.Has path d → d.PlainThis)

include hscoped hnames hplain

/-- The uses in a target in a plain file. -/
theorem Content.Has.not_keepsThis {path : List String} {d : Declaration}
    (hd : content.Has path d) {t : Target} (ht : Target.ofDeclaration? d = some t)
    {bindings : List TypeExpr} (hb : ∀ b ∈ bindings, ¬ b.Contains thisName) :
    ∀ u ∈ t.uses bindings, ¬ u.KeepsThis := by
  obtain ⟨hpath, hinner⟩ := hd.scopeNames
  exact Target.not_keepsThis ht (hscoped path d hd) (fun h => hnames (hpath h))
    (fun h => hnames (hinner h)) (hplain path d hd) hb

/-- All uses in a plain file: a declaration binds what its header lists, and a typedef its own
arguments. -/
theorem not_keepsThis_of_mem_contentUses :
    ∀ u ∈ contentUses (.ofContent content) content, ¬ u.KeepsThis := by
  intro u hu
  obtain ⟨path, d, hd, hu, hleaf⟩ := exists_of_mem_contentUses content hu
  have hd' := hplain path d hd
  cases d with
  | inclusion d => cases hu
  | enumeration d => cases hu
  | space name content span => exact absurd rfl (hleaf _ _ _)
  | cls c =>
    obtain ⟨bindings, hb, hu⟩ := List.mem_flatMap.1 hu
    have hheaders : ∀ t ∈ c.template, t ∈ (Declaration.cls c).headers :=
      fun t ht => List.mem_append_left _ (Option.mem_toList.2 ht)
    exact hd.not_keepsThis hscoped hnames hplain rfl (hd'.not_contains hheaders hb) u hu
  | function f =>
    obtain ⟨bindings, hb, hu⟩ := List.mem_flatMap.1 hu
    have hbindings := hd'.not_contains (fun t ht => Option.mem_toList.2 ht) hb
    exact hd.not_keepsThis hscoped hnames hplain rfl hbindings u hu
  | forward f =>
    obtain ⟨bindings, hb, hu⟩ := List.mem_flatMap.1 hu
    have hbindings := hd'.not_contains (fun t ht => Option.mem_toList.2 ht) hb
    exact hd.not_keepsThis hscoped hnames hplain rfl hbindings u hu
  | var v =>
    obtain ⟨bindings, hb, hu⟩ := List.mem_flatMap.1 hu
    have hheaders : ∀ t ∈ v.template, t ∈ (Declaration.var v).headers :=
      fun t ht => Option.mem_toList.2 ht
    apply not_keepsThis_of_mem_headerUses (hd'.not_contains hheaders hb) ?_ u hu
    intro t ht
    exact (hd'.types t ht).mono (paramNames_subset hheaders)
  | typedef a =>
    rw [Declaration.uses, List.mem_flatMap] at hu
    obtain ⟨t, ht, hu⟩ := hu
    have hresolved := except_ok_of_toOption (Option.mem_toList.1 ht)
    obtain ⟨place, d', hplace, hof⟩ := TypedefIndex.has_of_target hresolved
    exact hplace.not_keepsThis hscoped hnames hplain hof (hd'.aliased a rfl) u hu

end Plain

/-- Where nothing is called `This`, every `This` stands for the class alone, and nothing that is
bound or copied names it, none is left when the file is expanded. -/
theorem Interface.not_hasThis_of_plainThis {policy : CollisionPolicy} {source : String}
    {m out : Interface} (hm : parse source = .ok m) (hout : m.instantiate policy = .ok out)
    (hnames : thisName ∉ contentScopeNames m.content)
    (hplain : ∀ path d, m.content.Has path d → d.PlainThis) : ∀ t ∈ out.types, ¬ t.HasThis := by
  have hwf := wellFormed_of_parse hm
  have hclean := not_keepsThis_of_mem_contentUses
    (fun path d hd => (hd.wellFormed hwf).scoped) hnames hplain
  intro t ht hthis
  obtain ⟨u, hu, hbecomes⟩ := exists_mem_of_forall₂ (types_of_instantiate hout).flip ht
  exact hclean u hu (((written_of_mem_uses hm u hu).hasThis_iff_keepsThis hbecomes).1 hthis)

/-! ## A placeholder that is left -/

namespace Interface

/-- A class with a method for the class itself, which the header of the method lists. -/
def listedThis : String := "class Foo \x7b template<T = \x7bThis\x7d> void f(T t); \x7d;"

/-- Nothing is called `This`, but the argument of the method keeps it as its type. -/
theorem listedThis_types : ∃ m out : Interface, parse listedThis = .ok m ∧
    wrap .ignore listedThis = .ok out ∧ thisName ∉ contentScopeNames m.content ∧
    out.types = [.named "void", .named "This"] := by
  have hrun : ((parse listedThis).toOption.any fun m =>
      decide (thisName ∉ contentScopeNames m.content) &&
        (m.instantiate .ignore).toOption.any fun out =>
          decide (out.types = [.named "void", .named "This"])) = true := by
    decide +kernel
  obtain ⟨m, hm, hchecks⟩ := (Option.any_eq_true _ _).1 hrun
  rw [Bool.and_eq_true, decide_eq_true_eq, Option.any_eq_true] at hchecks
  obtain ⟨hnames, out, hout, htypes⟩ := hchecks
  have hparse := except_ok_of_toOption hm
  have hexpand := except_ok_of_toOption hout
  refine ⟨m, out, hparse, ?_, hnames, of_decide_eq_true htypes⟩
  rw [wrap, hparse]
  show (m.instantiate .ignore).mapError _ = _
  rw [hexpand]
  rfl

/-- One of the types that are bound is to blame. -/
theorem listedThis_keepsThis : ∃ m out : Interface, wrap .ignore listedThis = .ok out ∧
    parse listedThis = .ok m ∧ ∃ u ∈ m.uses, u.KeepsThis := by
  obtain ⟨-, out, -, hwrap, -, htypes⟩ := listedThis_types
  obtain ⟨m, hm, hiff⟩ := exists_hasThis_iff hwrap
  refine ⟨m, out, hwrap, hm, hiff.1 ?_⟩
  rw [htypes]
  exact ⟨.named "This", by simp, by decide⟩

/-- So `This` can be left although nothing is called so. -/
theorem not_forall_not_hasThis :
    ¬ ∀ (source : String) (policy : CollisionPolicy) (m out : Interface),
      parse source = .ok m → thisName ∉ contentScopeNames m.content →
      wrap policy source = .ok out → ∀ t ∈ out.types, ¬ t.HasThis := by
  intro hall
  obtain ⟨m, out, hm, hwrap, hnames, htypes⟩ := listedThis_types
  have hclean := hall listedThis .ignore m out hm hnames hwrap
  rw [htypes] at hclean
  exact hclean (.named "This") (by simp) (by decide)

end Interface

end TemplateIdl
