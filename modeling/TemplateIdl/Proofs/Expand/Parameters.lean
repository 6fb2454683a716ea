import TemplateIdl.Proofs.Decl.Text
import TemplateIdl.Proofs.Expand.Collision
import TemplateIdl.Proofs.Expand.Instance

/-!
# Parameters — the ones that are left in an instance

The types that a member lists in a header of its own are taken as they are written. So where they
name a parameter of the class, it is left in the instances of the class.

* `TypeExpr.Mentions`, a bare name in a type use, and `TypeExpr.Contains`, a name anywhere in it;
* `Substitution.Leaves`, where the bare name of a parameter comes from in what is substituted, and
  `Substitution.mentions_iff_leaves`, it comes from nowhere else;
* `ClassDecl.exists_instance_mentions_iff`, so which parameters are left in an instance;
* `ClassDecl.exists_instance_not_mentions`, none is where headers of members keep off them and
  bindings have names.
-/

namespace TemplateIdl

/-! ## Names in type uses -/

namespace TypeExpr

/-- The bare name `p` is a type use, or one of its arguments at some depth. -/
inductive Mentions (p : String) : TypeExpr → Prop
  | bare {isConst : Bool} {sign : Option Indirection} {isBasic : Bool} :
      Mentions p (.mk [] p [] isConst sign isBasic)
  | arg {ns : List String} {name : String} {args : List TypeExpr} {isConst : Bool}
      {sign : Option Indirection} {isBasic : Bool} {a : TypeExpr} (h : a ∈ args)
      (ha : Mentions p a) : Mentions p (.mk ns name args isConst sign isBasic)

/-- The name `s` is the name in a type use or one of its namespaces, or those of an argument at
some depth. -/
inductive Contains (s : String) : TypeExpr → Prop
  | name {ns : List String} {args : List TypeExpr} {isConst : Bool} {sign : Option Indirection}
      {isBasic : Bool} : Contains s (.mk ns s args isConst sign isBasic)
  | space {ns : List String} {name : String} {args : List TypeExpr} {isConst : Bool}
      {sign : Option Indirection} {isBasic : Bool} (h : s ∈ ns) :
      Contains s (.mk ns name args isConst sign isBasic)
  | arg {ns : List String} {name : String} {args : List TypeExpr} {isConst : Bool}
      {sign : Option Indirection} {isBasic : Bool} {a : TypeExpr} (h : a ∈ args)
      (ha : Contains s a) : Contains s (.mk ns name args isConst sign isBasic)

variable {p : String}

theorem Mentions.contains {t : TypeExpr} (h : t.Mentions p) : t.Contains p := by
  induction h with
  | bare => exact .name
  | arg h _ ih => exact .arg h ih

theorem mentions_mk {ns : List String} {name : String} {args : List TypeExpr} {isConst : Bool}
    {sign : Option Indirection} {isBasic : Bool} :
    (mk ns name args isConst sign isBasic).Mentions p ↔
      (ns = [] ∧ name = p ∧ args = []) ∨ ∃ a ∈ args, a.Mentions p := by
  constructor
  · intro h
    cases h with
    | bare => exact .inl ⟨rfl, rfl, rfl⟩
    | arg h ha => exact .inr ⟨_, h, ha⟩
  · intro h
    rcases h with ⟨rfl, rfl, rfl⟩ | ⟨a, h, ha⟩
    · exact .bare
    · exact .arg h ha

/-- Qualifiers do not matter. -/
theorem mentions_rename {t u : TypeExpr} {isBasic : Bool} :
    (t.rename u.typename isBasic).Mentions p ↔ u.Mentions p := by
  cases u
  exact mentions_mk.trans mentions_mk.symm

/-- In a name by itself there are no other names. -/
theorem contains_named {s name : String} : (named name).Contains s ↔ name = s := by
  constructor
  · intro h
    cases h with
    | name => rfl
    | space h => exact absurd h List.not_mem_nil
    | arg h _ => exact absurd h List.not_mem_nil
  · intro h
    rw [h]
    exact .name

end TypeExpr

/-- Only an empty path and an empty segment leave a name without namespaces. -/
theorem Typename.ofPath_namespaces_eq_nil {path : List String} {name : String}
    {args : List TypeExpr} :
    (Typename.ofPath path name args).namespaces = [] ↔ path = [] ∨ path = [""] := by
  unfold Typename.ofPath
  split
  · simp
  · next h =>
    constructor
    · exact .inl
    · intro hp
      rcases hp with hp | hp
      · exact hp
      · exact absurd hp (h [])

theorem Typename.ofPath_name (path : List String) (name : String) (args : List TypeExpr) :
    (Typename.ofPath path name args).name = name := by
  unfold Typename.ofPath
  split <;> rfl

theorem Typename.ofPath_args (path : List String) (name : String) (args : List TypeExpr) :
    (Typename.ofPath path name args).args = args := by
  unfold Typename.ofPath
  split <;> rfl

/-- The name alone is empty only if there is nothing in it. -/
theorem Typename.templatedName_eq_empty {t : Typename} :
    t.templatedName = "" ↔ t.name = "" ∧ t.args = [] := by
  have hbracket : ∀ texts : List String, angled texts = "" ↔ texts = [] := by
    intro texts
    unfold angled
    split
    · next h => simpa using h
    · next h => simpa [String.append_eq_empty_iff] using h
  simp [templatedName, String.append_eq_empty_iff, hbracket]

/-- Behind template arguments there is a bracket, so an identifier has none. -/
theorem Typename.templatedName_eq_name {t : Typename} (h : isIdentifier t.templatedName = true) :
    t.templatedName = t.name := by
  have hword : ∀ c ∈ t.templatedName.toList, Bite.isWordChar c = true := by
    simp only [isIdentifier, Bool.and_eq_true, List.all_eq_true] at h
    exact h.1.2
  unfold templatedName angled at hword ⊢
  by_cases hargs : (t.args.map TypeExpr.text).isEmpty = true
  · rw [if_pos hargs]
    exact String.append_empty
  · rw [if_neg hargs] at hword
    exact absurd (hword '>' (by simp)) (by decide)

theorem TypeExpr.mentions_rename_ofPath {p : String} {t : TypeExpr} {path : List String}
    {name : String} {args : List TypeExpr} {isBasic : Bool} :
    (t.rename (.ofPath path name args) isBasic).Mentions p ↔
      ((path = [] ∨ path = [""]) ∧ name = p ∧ args = []) ∨ ∃ a ∈ args, a.Mentions p := by
  refine mentions_mk.trans ?_
  rw [Typename.ofPath_namespaces_eq_nil, Typename.ofPath_name, Typename.ofPath_args]

/-! ## Substituted type uses -/

/-- In lists whose elements belong together, each element has a partner. -/
theorem exists_mem_of_forall₂ {α β : Type} {R : α → β → Prop} {as : List α} {bs : List β}
    (h : List.Forall₂ R as bs) {a : α} (ha : a ∈ as) : ∃ b ∈ bs, R a b := by
  induction h with
  | nil => exact absurd ha List.not_mem_nil
  | cons hab _ ih =>
    rcases List.mem_cons.1 ha with rfl | ha
    · exact ⟨_, List.mem_cons_self, hab⟩
    · obtain ⟨b, hb, hR⟩ := ih ha
      exact ⟨b, List.mem_cons_of_mem _ hb, hR⟩

/-- Elements of a property in lists whose elements have it in pairs. -/
theorem exists_mem_iff_of_forall₂ {α β : Type} {R : α → β → Prop} {P : α → Prop} {Q : β → Prop}
    {as : List α} {bs : List β} (h : List.Forall₂ R as bs)
    (hPQ : ∀ a ∈ as, ∀ b, R a b → (Q b ↔ P a)) : (∃ b ∈ bs, Q b) ↔ ∃ a ∈ as, P a := by
  constructor
  · intro hQ
    obtain ⟨b, hb, hQ⟩ := hQ
    obtain ⟨a, ha, hR⟩ := exists_mem_of_forall₂ h.flip hb
    exact ⟨a, ha, (hPQ a ha b hR).1 hQ⟩
  · intro hP
    obtain ⟨a, ha, hP⟩ := hP
    obtain ⟨b, hb, hR⟩ := exists_mem_of_forall₂ h ha
    exact ⟨b, hb, (hPQ a ha b hR).2 hP⟩

namespace Substitution

/-- Where the bare name `p` comes from when something is substituted in a type use. -/
inductive Leaves (σ : Substitution) (p : String) : TypeExpr → Prop
  /-- What the name is bound to. -/
  | bound {name : String} {isConst : Bool} {sign : Option Indirection} {isBasic : Bool}
      {bound : TypeExpr} (h : σ.get? name = some bound) (hb : bound.Mentions p) :
      Leaves σ p (.mk [] name [] isConst sign isBasic)
  /-- A namespace that is bound to a type without a name, and so disappears. -/
  | blank {space : String} {args : List TypeExpr} {isConst : Bool} {sign : Option Indirection}
      {isBasic : Bool} {bound : TypeExpr} (h : σ.get? space = some bound)
      (hb : bound.typename = .simple "") : Leaves σ p (.mk [space] p args isConst sign isBasic)
  /-- An argument; those behind a parameter in the path are dropped. -/
  | arg {ns : List String} {name : String} {args : List TypeExpr} {isConst : Bool}
      {sign : Option Indirection} {isBasic : Bool} {a : TypeExpr} (hns : ∀ s ∈ ns, s ∉ σ.names)
      (h : a ∈ args) (ha : Leaves σ p a) : Leaves σ p (.mk ns name args isConst sign isBasic)

variable {σ : Substitution} {p : String}

theorem leaves_iff {t : TypeExpr} :
    σ.Leaves p t ↔
      (t.namespaces = [] ∧ t.args = [] ∧ ∃ bound, σ.get? t.name = some bound ∧ bound.Mentions p) ∨
      (t.name = p ∧ ∃ space bound, t.namespaces = [space] ∧ σ.get? space = some bound ∧
        bound.typename = .simple "") ∨
      ((∀ s ∈ t.namespaces, s ∉ σ.names) ∧ ∃ a ∈ t.args, σ.Leaves p a) := by
  constructor
  · intro h
    cases h with
    | bound h hb => exact .inl ⟨rfl, rfl, _, h, hb⟩
    | blank h hb => exact .inr (.inl ⟨rfl, _, _, rfl, h, hb⟩)
    | arg hns h ha => exact .inr (.inr ⟨hns, _, h, ha⟩)
  · intro h
    obtain ⟨ns, name, args, c, i, b⟩ := t
    rcases h with ⟨hns, has, bound, h, hb⟩ | ⟨hname, space, bound, hns, h, hb⟩ | ⟨hns, a, h, ha⟩
    · cases hns
      cases has
      exact .bound h hb
    · cases hns
      cases hname
      exact .blank h hb
    · exact .arg hns h ha

/-- Some type that is bound is to blame. -/
theorem Leaves.exists_param {t : TypeExpr} (h : σ.Leaves p t) :
    ∃ q ∈ σ.params, q.2.Mentions p ∨ q.2.typename = .simple "" := by
  induction h with
  | bound h hb => exact ⟨_, mem_of_get?_eq_some h, .inl hb⟩
  | blank h hb => exact ⟨_, mem_of_get?_eq_some h, .inr hb⟩
  | arg _ _ _ ih => exact ih

/-- The path of a name is never empty, and an empty segment by itself is that of an empty name. -/
theorem segment_eq_empty {before after : List String} {t : Typename} :
    (before ++ pathOf t ++ after = [] ∨ before ++ pathOf t ++ after = [""]) ↔
      before = [] ∧ after = [] ∧ t = .simple "" := by
  obtain ⟨ns, name, args⟩ := t
  have hpath : before ++ pathOf ⟨ns, name, args⟩ ++ after =
      (before ++ ns) ++ Typename.templatedName ⟨ns, name, args⟩ :: after := by
    simp [pathOf]
  rw [hpath, List.append_eq_singleton_iff, Typename.simple, Typename.mk.injEq]
  simp [Typename.templatedName_eq_empty]
  tauto

/-- The only segment of a path is a parameter. -/
theorem scoped?_eq_some_nil {path : List String} {bound : TypeExpr} :
    σ.scoped? path = some ([], bound, []) ↔ ∃ name, path = [name] ∧ σ.get? name = some bound := by
  constructor
  · intro h
    obtain ⟨name, -, rfl⟩ := scoped?_eq_some h
    rw [List.nil_append, scoped?_singleton] at h
    obtain ⟨b, hb, he⟩ := Option.map_eq_some_iff.1 h
    cases he
    exact ⟨name, rfl, hb⟩
  · intro h
    obtain ⟨name, rfl, hb⟩ := h
    rw [scoped?_singleton, hb, Option.map_some]

theorem leaves_iff_of_segment {t bound : TypeExpr} {before after : List String}
    (h : σ.scoped? t.namespaces = some (before, bound, after)) :
    σ.Leaves p t ↔ (before = [] ∧ after = [] ∧ bound.typename = .simple "") ∧ t.name = p := by
  obtain ⟨name, hmem, hpath⟩ := scoped?_eq_some h
  have hne : t.namespaces ≠ [] := by simp [hpath]
  have hnames : ¬ ∀ s ∈ t.namespaces, s ∉ σ.names := by
    rw [← scoped?_eq_none, h]
    exact nofun
  rw [leaves_iff]
  simp only [hne, hnames, false_and, or_false, false_or]
  constructor
  · intro hleaves
    obtain ⟨hname, space, b, hspace, hb, hempty⟩ := hleaves
    have hone := scoped?_eq_some_nil.2 ⟨space, hspace, hb⟩
    rw [h] at hone
    cases hone
    exact ⟨⟨rfl, rfl, hempty⟩, hname⟩
  · intro hempty
    obtain ⟨⟨rfl, rfl, hempty⟩, hname⟩ := hempty
    obtain ⟨space, hspace, hb⟩ := scoped?_eq_some_nil.1 h
    exact ⟨hname, space, bound, hspace, hb, hempty⟩

theorem leaves_iff_of_param {t bound : TypeExpr} (hns : t.namespaces = []) (has : t.args = [])
    (h : σ.get? t.name = some bound) : σ.Leaves p t ↔ bound.Mentions p := by
  rw [leaves_iff]
  simp [hns, has, h]

theorem leaves_iff_of_plain {t : TypeExpr} (hscoped : σ.scoped? t.namespaces = none)
    (hbare : t.namespaces = [] → t.args = [] → σ.get? t.name = none) :
    σ.Leaves p t ↔ ∃ a ∈ t.args, σ.Leaves p a := by
  have hnames := scoped?_eq_none.1 hscoped
  rw [leaves_iff]
  constructor
  · intro h
    rcases h with ⟨hns, has, bound, h, -⟩ | ⟨-, space, bound, hns, h, -⟩ | ⟨-, h⟩
    · rw [hbare hns has] at h
      cases h
    · have hspace := get?_eq_none.2 (hnames space (by simp [hns]))
      rw [hspace] at h
      cases h
    · exact h
  · intro h
    exact .inr (.inr ⟨hnames, h⟩)

/-- A bare parameter in what is substituted comes from where `Leaves` says. -/
theorem mentions_iff_leaves {cls : Typename} (hp : p ∈ σ.names) (hthis : σ.this = some cls)
    (hne : cls.args ≠ []) (hcls : ∀ a ∈ cls.args, ¬ a.Mentions p) {inArgs : Bool} {t t' : TypeExpr}
    (ht : t.WellFormed inArgs) (h : σ.subst? t = some t') : t'.Mentions p ↔ σ.Leaves p t := by
  revert t'
  refine ht.induct_mk (motive := fun t => ∀ {t'}, σ.subst? t = some t' →
    (t'.Mentions p ↔ σ.Leaves p t)) ?_
  intro ns name as c i b hidentifiers _ _ ih t' hsubst
  obtain ⟨args, hargs, hreplace⟩ := subst?_eq_some.1 hsubst
  have hiff : (∃ a ∈ args, a.Mentions p) ↔ ∃ a ∈ as, σ.Leaves p a :=
    exists_mem_iff_of_forall₂ hargs fun a ha a' => ih a ha
  obtain ⟨new, isBasic, hreplaced, rfl⟩ := replaced_of_replace? hreplace
  cases hreplaced with
  | segment h =>
    rw [TypeExpr.mentions_rename_ofPath, segment_eq_empty, leaves_iff_of_segment h]
    simp
  | param hns has h =>
    rw [TypeExpr.mentions_rename, leaves_iff_of_param hns has h]
  | this hns has hn hnone h =>
    -- the class is written with its bindings
    cases hthis.symm.trans h
    have hscoped : σ.scoped? (TypeExpr.mk ns name as c i b).namespaces = none := by
      rw [hns, scoped?_eq_none]
      exact nofun
    rw [leaves_iff_of_plain hscoped fun _ _ => hnone, has]
    refine TypeExpr.mentions_mk.trans ?_
    simpa [hne] using hcls
  | @inner before after _ hnone hs h =>
    cases hthis.symm.trans h
    have hbare : ns ≠ [] := by
      have hpath := (splitAtFirst?_eq_some hs).1
      change ns = before ++ thisName :: after at hpath
      simp [hpath]
    have hpath : ¬ (pathOf cls ++ after = [] ∨ pathOf cls ++ after = [""]) := by
      intro hempty
      obtain ⟨-, -, hcls⟩ := (@segment_eq_empty [] after cls).1 hempty
      exact hne (congrArg Typename.args hcls)
    rw [TypeExpr.mentions_rename_ofPath, leaves_iff_of_plain hnone fun h => absurd h hbare]
    simp only [hpath, false_and, false_or]
    exact hiff
  | plain hnone hbare =>
    have hpath : ¬ ((ns = [] ∨ ns = [""]) ∧ name = p ∧ args = []) := by
      intro h
      obtain ⟨hns, rfl, rfl⟩ := h
      rcases hns with rfl | rfl
      · -- a bare name is that of a parameter, so it is replaced
        rw [List.forall₂_nil_right_iff] at hargs
        exact get?_eq_none.1 (hbare rfl hargs) hp
      · exact absurd (hidentifiers "" (by simp)) (by decide)
    rw [TypeExpr.mentions_rename_ofPath, leaves_iff_of_plain hnone hbare]
    simp only [TypeExpr.namespaces, TypeExpr.name, hpath, false_or]
    exact hiff

end Substitution

/-! ## Classes that can be written -/

/-- Types that can be written have names. -/
theorem TypeExpr.WellFormed.typename_ne {inArgs : Bool} {t : TypeExpr} (h : t.WellFormed inArgs) :
    t.typename ≠ .simple "" := by
  refine h.induct_mk (motive := fun t => t.typename ≠ .simple "") ?_
  intro ns name as c i b _ hname _ _ he
  obtain ⟨d, l, hl, -⟩ := hname.head
  cases he
  cases hl

theorem ClassDecl.StandsIn.wellFormed {c : ClassDecl} {path : List String} {ds : Content}
    (h : c.StandsIn path ds) {ns : List String} (hds : ∀ d ∈ ds, d.WellFormed ns) :
    c.WellFormed (ns ++ path) := by
  cases h.has.wellFormed hds with
  | cls hc => exact hc

theorem argumentTypes_wellFormed {args : List Argument} (h : WellFormedArguments args) :
    ∀ t ∈ argumentTypes args, ∃ inArgs, t.WellFormed inArgs := by
  intro t ht
  obtain ⟨a, ha, rfl⟩ := List.mem_map.1 ht
  exact ⟨_, (h.each a ha).type⟩

/-- The types in a result are the type that it is read from or the arguments of that. -/
theorem ReturnType.WellFormed.types {r : ReturnType} (h : r.WellFormed) :
    ∀ t ∈ r.types, ∃ inArgs, t.WellFormed inArgs := by
  obtain ⟨t, ht, rfl⟩ := h
  rcases ofType_cases t with h | ⟨first, second, h, hargs, -, -⟩
  · rw [h]
    intro u hu
    rw [List.mem_singleton.1 hu]
    exact ⟨_, ht⟩
  · rw [h, ReturnType.types, ← hargs]
    intro u hu
    exact ⟨_, ht.args u hu⟩

theorem Member.WellFormed.types {h : ClassHead} {m : Member} (hm : m.WellFormed h) :
    ∀ t ∈ m.types, ∃ inArgs, t.WellFormed inArgs := by
  cases hm with
  | ctor _ _ ha _ => exact argumentTypes_wellFormed ha
  | method _ hr ha _ => exact List.forall_mem_append.2 ⟨hr.types, argumentTypes_wellFormed ha⟩
  | static _ hr ha _ => exact List.forall_mem_append.2 ⟨hr.types, argumentTypes_wellFormed ha⟩
  | special _ _ ha => exact argumentTypes_wellFormed ha
  | operator hr ha => exact List.forall_mem_append.2 ⟨hr.types, argumentTypes_wellFormed ha⟩
  | property ht _ _ =>
    intro t h
    rw [List.mem_singleton.1 h]
    exact ⟨_, ht⟩
  | enumeration _ => exact nofun

theorem Member.WellFormed.template {h : ClassHead} {m : Member} (hm : m.WellFormed h) :
    ∀ t ∈ m.template, t.WellFormed := by
  cases hm with
  | ctor _ _ _ ht => exact ht
  | method _ _ _ ht => exact ht
  | static _ _ _ ht => exact ht
  | _ => exact nofun

namespace ClassDecl

theorem WellFormed.member {ns : List String} {c : ClassDecl} (h : c.WellFormed ns) {m : Member}
    (hm : m ∈ c.members) : ∃ head, m.WellFormed head := by
  obtain ⟨head, ms, span, -, hms, rfl⟩ := h
  exact ⟨head, hms m (head.members_close ms span hm)⟩

theorem WellFormed.types {ns : List String} {c : ClassDecl} (h : c.WellFormed ns) :
    ∀ t ∈ c.types, ∃ inArgs, t.WellFormed inArgs := by
  have hparent : ∀ t ∈ c.parent.toList, ∃ inArgs, t.WellFormed inArgs := by
    obtain ⟨head, ms, span, hhead, -, rfl⟩ := h
    intro t ht
    exact ⟨_, hhead.parent t (Option.mem_toList.1 ht)⟩
  refine List.forall_mem_append.2 ⟨hparent, ?_⟩
  intro t ht
  obtain ⟨m, hm, ht⟩ := List.mem_flatMap.1 ht
  obtain ⟨head, hwf⟩ := h.member hm
  exact hwf.types t ht

/-! ## What is bound where -/

variable {c : ClassDecl} {bindings : List TypeExpr}

/-- Behind what is bound in the whole class, there is at most what the header of a member lists. -/
theorem mem_uses {s : Substitution × TypeExpr} (h : s ∈ c.uses bindings) :
    s.2 ∈ c.types ∧ ∃ names types, s.1 = (c.bound bindings).extend names types ∧
      (∀ b ∈ types, ∃ m ∈ c.members, ∃ t ∈ m.template, ∃ q ∈ t.params, b ∈ q.choices) ∧
      ∀ n ∈ names, ∃ m ∈ c.members, ∃ t ∈ m.template, n ∈ t.names := by
  have hself : c.bound bindings = (c.bound bindings).extend [] [] := by
    simp [Substitution.extend]
  rcases List.mem_append.1 h with h | h
  · obtain ⟨t, ht, rfl⟩ := List.mem_map.1 h
    exact ⟨List.mem_append_left _ ht, [], [], hself, nofun, nofun⟩
  · obtain ⟨m, hm, h⟩ := List.mem_flatMap.1 h
    obtain ⟨τ, hτ, h⟩ := List.mem_flatMap.1 h
    obtain ⟨t, ht, rfl⟩ := List.mem_map.1 h
    refine ⟨List.mem_append_right _ (List.mem_flatMap.2 ⟨m, hm, ht⟩), ?_⟩
    unfold Member.substitutions at hτ
    cases hheader : m.template with
    | none =>
      rw [hheader, List.mem_singleton] at hτ
      rw [hτ]
      exact ⟨[], [], hself, nofun, nofun⟩
    | some header =>
      rw [hheader] at hτ
      obtain ⟨types, htypes, rfl⟩ := List.mem_map.1 hτ
      refine ⟨header.names, types, rfl, ?_, fun n hn => ⟨m, hm, header, hheader, hn⟩⟩
      intro b hb
      obtain ⟨t, ht, hchoice⟩ := @exists_choices_of_mem_combinations (some header) _ htypes b hb
      cases ht
      exact ⟨m, hm, header, hheader, hchoice⟩

/-- In all types of a class, the parameters of the class are bound, and `This` is the class with its
bindings. -/
theorem bound_of_mem_uses {t : Template} (ht : c.template = some t)
    (hlength : t.names.length = bindings.length) {s : Substitution × TypeExpr}
    (h : s ∈ c.uses bindings) :
    (∀ p ∈ t.names, p ∈ s.1.names) ∧ s.1.this = some (.ofPath c.namespaces c.name bindings) := by
  obtain ⟨-, names, types, hs, -⟩ := mem_uses h
  rw [hs]
  refine ⟨?_, rfl⟩
  intro p hp
  have hnames : (t.names.zip bindings).map Prod.fst = t.names := List.map_fst_zip hlength.le
  simp only [Substitution.names, Substitution.extend, bound, Substitution.withThis, ht, paramNames,
    Substitution.empty, List.map_append, List.nil_append, hnames]
  exact List.mem_append_left _ hp

/-- A class that can be written has an instance for each choice of types, and if these do not
mention the parameters of the class, `Leaves` tells which of them are left. -/
theorem WellFormed.exists_instance {ns : List String} (hc : c.WellFormed ns) {t : Template}
    (ht : c.template = some t) (hlength : t.names.length = bindings.length)
    (hb : ∀ b ∈ bindings, ∀ p ∈ t.names, ¬ b.Mentions p) (newName : Option String) :
    ∃ x, c.instantiate bindings newName = .ok x ∧ ∀ p ∈ t.names,
      ((∃ u ∈ x.types, u.Mentions p) ↔ ∃ s ∈ c.uses bindings, s.1.Leaves p s.2) := by
  have hbind : (paramNames c.template).length = bindings.length := by rwa [ht]
  obtain ⟨x, hx, hsub⟩ := exists_expand hbind c.span newName
  refine ⟨x, hx, ?_⟩
  intro p hp
  have hne : bindings ≠ [] := by
    rw [← List.length_pos_iff, ← hlength]
    exact List.length_pos_of_mem hp
  refine exists_mem_iff_of_forall₂ hsub ?_
  intro s hs u hu
  obtain ⟨hnames, hthis⟩ := bound_of_mem_uses ht hlength hs
  obtain ⟨inArgs, hwritten⟩ := hc.types s.2 (mem_uses hs).1
  have hargs : (Typename.ofPath c.namespaces c.name bindings).args = bindings :=
    Typename.ofPath_args _ _ _
  refine Substitution.mentions_iff_leaves (hnames p hp) hthis ?_ ?_ hwritten hu
  · rwa [hargs]
  · rw [hargs]
    intro b hmem
    exact hb b hmem p hp

/-- A class in a file has an instance for each choice of types. If these do not mention the
parameters of the class, one is left exactly where the types bound in a member mention it, or
where a namespace is bound to a type without a name. -/
theorem exists_instance_mentions_iff {source : String} {m : Interface} {path : List String}
    {t : Template} (hm : Interface.parse source = .ok m) (hc : c.StandsIn path m.content)
    (ht : c.template = some t) (hlength : t.names.length = bindings.length)
    (hb : ∀ b ∈ bindings, ∀ p ∈ t.names, ¬ b.Mentions p) (newName : Option String) :
    ∃ x, c.instantiate bindings newName = .ok x ∧ ∀ p ∈ t.names,
      ((∃ u ∈ x.types, u.Mentions p) ↔ ∃ s ∈ c.uses bindings, s.1.Leaves p s.2) :=
  (hc.wellFormed (Interface.wellFormed_of_parse hm)).exists_instance ht hlength hb newName

/-- No parameter is left where the headers of the members do not mention it either, and all
types have names. -/
theorem WellFormed.exists_instance_not_mentions {ns : List String} (hc : c.WellFormed ns)
    {t : Template} (ht : c.template = some t) (hlength : t.names.length = bindings.length)
    (hb : ∀ b ∈ bindings, ∀ p ∈ t.names, ¬ b.Mentions p)
    (hnamed : ∀ b ∈ bindings, b.typename ≠ .simple "")
    (hheaders : ∀ m ∈ c.members, ∀ h ∈ m.template, ∀ q ∈ h.params, ∀ b ∈ q.choices,
      ∀ p ∈ t.names, ¬ b.Mentions p) (newName : Option String) :
    ∃ x, c.instantiate bindings newName = .ok x ∧
      ∀ p ∈ t.names, ∀ u ∈ x.types, ¬ u.Mentions p := by
  obtain ⟨x, hx, hiff⟩ := hc.exists_instance ht hlength hb newName
  refine ⟨x, hx, ?_⟩
  intro p hp u hu hmentions
  obtain ⟨s, hs, hleaves⟩ := (hiff p hp).1 ⟨u, hu, hmentions⟩
  obtain ⟨-, names, types, hbound, htypes, -⟩ := mem_uses hs
  obtain ⟨q, hq, hcause⟩ := hleaves.exists_param
  rw [hbound] at hq
  rcases List.mem_append.1 hq with hq | hq
  · have hmem : q.2 ∈ bindings := (List.of_mem_zip hq).2
    exact hcause.elim (hb q.2 hmem p hp) (hnamed q.2 hmem)
  · obtain ⟨m, hm, h, hh, r, hr, hmem⟩ := htypes q.2 (List.of_mem_zip hq).2
    obtain ⟨head, hwf⟩ := hc.member hm
    have hchoice := ((hwf.template h hh).params r hr).choices q.2 hmem
    exact hcause.elim (hheaders m hm h hh r hr q.2 hmem p hp) hchoice.typename_ne

end ClassDecl

/-! ## A parameter that is left -/

namespace Interface

/-- A class with a method for its own parameter. -/
def innerFile : String :=
  "template<T = \x7bint\x7d> class Foo \x7b template<U = \x7bT\x7d> void f(U u); \x7d;"

/-- The argument of the method keeps the parameter as its type. -/
theorem innerFile_class : ∃ (m : Interface) (c x : ClassDecl) (t : Template),
    parse innerFile = .ok m ∧ c.StandsIn [] m.content ∧ c.template = some t ∧ t.names = ["T"] ∧
    c.instantiate [.named "int"] none = .ok x ∧ x.types = [.named "void", .named "T"] := by
  have hrun : ((parse innerFile).toOption.map fun m => m.content.classes.map fun c =>
      (c.template.map Template.names,
        (c.instantiate [.named "int"] none).toOption.map ClassDecl.types)) =
          some [(some ["T"], some [.named "void", .named "T"])] := by
    decide +kernel
  obtain ⟨m, hm, hclasses⟩ := Option.map_eq_some_iff.1 hrun
  obtain ⟨c, cs, hc, hcx, -⟩ := List.map_eq_cons_iff.1 hclasses
  obtain ⟨htemplate, hinstance⟩ := Prod.mk.inj hcx
  obtain ⟨t, ht, hnames⟩ := Option.map_eq_some_iff.1 htemplate
  obtain ⟨x, hx, htypes⟩ := Option.map_eq_some_iff.1 hinstance
  refine ⟨m, c, x, t, except_ok_of_toOption hm, ?_, ht, hnames, except_ok_of_toOption hx, htypes⟩
  exact ClassDecl.standsIn_of_mem_classes (by simp [hc])

theorem not_contains_int : ∀ b ∈ [TypeExpr.named "int"], ∀ p ∈ ["T"], ¬ b.Contains p := by
  intro b hb p hp
  rw [List.mem_singleton.1 hb, List.mem_singleton.1 hp, TypeExpr.contains_named]
  decide

/-- It comes from what the header of the method binds. -/
theorem innerFile_leaves : ∃ (m : Interface) (c : ClassDecl) (t : Template),
    parse innerFile = .ok m ∧ c.StandsIn [] m.content ∧ c.template = some t ∧ t.names = ["T"] ∧
    ∃ s ∈ c.uses [.named "int"], s.1.Leaves "T" s.2 := by
  obtain ⟨m, c, x, t, hm, hc, ht, hnames, hx, htypes⟩ := innerFile_class
  have hlength : t.names.length = [TypeExpr.named "int"].length := by
    rw [hnames]
    rfl
  have hb : ∀ b ∈ [TypeExpr.named "int"], ∀ p ∈ t.names, ¬ b.Mentions p := by
    rw [hnames]
    intro b hb p hp hmentions
    exact not_contains_int b hb p hp hmentions.contains
  obtain ⟨y, hy, hiff⟩ := ClassDecl.exists_instance_mentions_iff hm hc ht hlength hb none
  cases hx.symm.trans hy
  refine ⟨m, c, t, hm, hc, ht, hnames, (hiff "T" (by simp [hnames])).1 ?_⟩
  exact ⟨.named "T", by simp [htypes], .bare⟩

/-- So parameters of a class can be left in an instance. -/
theorem not_forall_not_mentions :
    ¬ ∀ (source : String) (m : Interface) (path : List String) (c : ClassDecl) (t : Template)
      (bindings : List TypeExpr) (newName : Option String), parse source = .ok m →
      c.StandsIn path m.content → c.template = some t → t.names.length = bindings.length →
      (∀ b ∈ bindings, ∀ p ∈ t.names, ¬ b.Contains p) →
      ∃ x, c.instantiate bindings newName = .ok x ∧
        ∀ u ∈ x.types, ∀ p ∈ t.names, ¬ u.Mentions p := by
  intro hall
  obtain ⟨m, c, x, t, hm, hc, ht, hnames, hx, htypes⟩ := innerFile_class
  have hlength : t.names.length = [TypeExpr.named "int"].length := by
    rw [hnames]
    rfl
  have hb : ∀ b ∈ [TypeExpr.named "int"], ∀ p ∈ t.names, ¬ b.Contains p := by
    rw [hnames]
    exact not_contains_int
  obtain ⟨y, hy, hclean⟩ := hall innerFile m [] c t [.named "int"] none hm hc ht hlength hb
  cases hx.symm.trans hy
  exact hclean (.named "T") (by simp [htypes]) "T" (by simp [hnames]) .bare

end Interface

end TemplateIdl
