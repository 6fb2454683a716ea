import TemplateIdl.Proofs.Decl.Slice
import TemplateIdl.Proofs.Expand.Concrete
import TemplateIdl.Proofs.Expand.Origin

/-!
# Again — what becomes of an expanded file when it is expanded

An expanded file has no headers, so each of its declarations is an instance of itself. But an
instance without bindings records nothing, and `This` is replaced once more.

* `TypeExpr.NamesItself`, a use of `This` that already means the class called `This`, and
  `Substitution.subst?_eq_self_iff`, no other uses of `This` stay;
* `Substitution.isSane_of_subst?`, what the types of an instance look like;
* `ClassDecl.IsSettled` and `Declaration.IsSettled`, a declaration that records nothing and in which
  no use of `This` is left;
* `Interface.instantiate_again_iff`, an expanded file is left as it is exactly if all its
  declarations are settled.
-/

namespace TemplateIdl

/-! ## Type uses -/

theorem Typename.ofPath_of_head {segments : List String} (h : segments.head? ≠ some "")
    (name : String) (args : List TypeExpr) :
    Typename.ofPath segments name args = ⟨segments, name, args⟩ := by
  unfold ofPath
  split
  · exact absurd rfl h
  · rfl

theorem Typename.ofPath_of_not_mem {segments : List String} (h : "" ∉ segments) (name : String)
    (args : List TypeExpr) : Typename.ofPath segments name args = ⟨segments, name, args⟩ :=
  ofPath_of_head (fun hhead => h (List.mem_of_head? hhead)) name args

namespace TypeExpr

/-- Only its own name leaves a type use as it is. -/
theorem rename_eq_self_iff {t : TypeExpr} {name : Typename} {isBasic : Bool} :
    t.rename name isBasic = t ↔ name = t.typename ∧ isBasic = t.isBasic := by
  obtain ⟨ns, n, args, c, i, b⟩ := t
  obtain ⟨ns', n', args'⟩ := name
  simp [rename, ofParts, typename, and_assoc, namespaces, TypeExpr.name, TypeExpr.args, isConst,
    indirection, TypeExpr.isBasic]

/-- The class that `This` stands for is called `This`, and it stands where the use of `This` says:
in the namespaces before the first `This`. -/
def NamesItself (cls : Typename) (t : TypeExpr) : Prop :=
  cls.name = thisName ∧ cls.namespaces = t.namespaces.takeWhile (· != thisName)

instance (cls : Typename) (t : TypeExpr) : Decidable (t.NamesItself cls) :=
  inferInstanceAs (Decidable (_ ∧ _))

/-- The path does not begin with an empty segment, and a use of `This` is not meant as that of a
built-in type. -/
structure IsSane (t : TypeExpr) : Prop where
  head : t.namespaces.head? ≠ some ""
  notBasic : t.IsPlaceholder → t.isBasic = false

end TypeExpr

/-- The name of a class without arguments, and of namespaces with names. -/
structure Typename.IsPlainClass (cls : Typename) : Prop where
  args : cls.args = []
  namespaces : "" ∉ cls.namespaces
  name : cls.name ≠ ""

namespace Substitution

variable {σ : Substitution} {cls : Typename}

theorem pathOf_ne_nil (t : Typename) : pathOf t ≠ [] :=
  List.append_ne_nil_of_right_ne_nil _ (List.cons_ne_nil _ _)

theorem not_mem_pathOf {t : Typename} (hns : "" ∉ t.namespaces) (hn : t.name ≠ "") :
    "" ∉ pathOf t := by
  have hname : t.templatedName ≠ "" := by
    rw [Ne, Typename.templatedName_eq_empty]
    exact fun h => hn h.1
  rw [pathOf, List.mem_append, List.mem_singleton]
  exact not_or.2 ⟨hns, hname.symm⟩

theorem head?_pathOf_append {t : Typename} (h : "" ∉ pathOf t) (after : List String) :
    (pathOf t ++ after).head? ≠ some "" := by
  rw [List.head?_append_of_ne_nil _ (pathOf_ne_nil t)]
  intro hhead
  exact h (List.mem_of_head? hhead)

/-- As a path, the class is its namespaces with its name. -/
theorem pathOf_plainClass (h : cls.IsPlainClass) : pathOf cls = cls.namespaces ++ [cls.name] := by
  rw [pathOf, Typename.templatedName, h.args]
  simp [angled]

theorem head_plainClass (h : cls.IsPlainClass) (after : List String) :
    (pathOf cls ++ after).head? ≠ some "" :=
  head?_pathOf_append (not_mem_pathOf h.namespaces h.name) after

/-- Nothing is a parameter. -/
theorem scoped?_of_params (hσ : σ.params = []) (path : List String) : σ.scoped? path = none :=
  scoped?_eq_none.2 (by simp [names, hσ])

theorem get?_of_params (hσ : σ.params = []) (name : String) : σ.get? name = none :=
  get?_eq_none.2 (by simp [names, hσ])

/-- The first `This` in a path is cut out behind what stands before it. -/
theorem takeWhile_of_split {path before after : List String}
    (h : splitAtFirst? thisName path = some (before, after)) :
    path.takeWhile (· != thisName) = before := by
  obtain ⟨rfl, hbefore⟩ := splitAtFirst?_eq_some h
  rw [List.takeWhile_append_of_pos]
  · simp
  · intro s hs
    have hne : s ≠ thisName := fun he => hbefore (he ▸ hs)
    simpa using hne

/-- Without parameters, only `This` is replaced. -/
theorem Replaced.of_params (hσ : σ.params = []) {t : TypeExpr} {args : List TypeExpr}
    {name : Typename} {isBasic : Bool} (h : Replaced σ t args name isBasic) :
    (t.args = [] ∧ σ.this = some name ∧ isBasic = false) ∨
      (∃ cls after, σ.this = some cls ∧ name = .ofPath (pathOf cls ++ after) t.name args ∧
        isBasic = false) ∨
      (¬ t.IsPlaceholder ∧ name = .ofPath t.namespaces t.name args ∧ isBasic = t.isBasic) := by
  cases h with
  | segment h =>
    rw [scoped?_of_params hσ] at h
    cases h
  | param _ _ h =>
    rw [get?_of_params hσ] at h
    cases h
  | this _ has _ _ hthis => exact .inl ⟨has, hthis, rfl⟩
  | inner _ _ hthis => exact .inr (.inl ⟨_, _, hthis, rfl, rfl⟩)
  | plain _ _ hname hpath => exact .inr (.inr ⟨not_or.2 ⟨hname, hpath⟩, rfl, rfl⟩)

/-- Without parameters and with its arguments as they were, a type use stays as it was exactly if
any `This` in it already means the class. -/
theorem replace?_eq_self_iff (hσ : σ.params = []) (hthis : σ.this = some cls)
    (hcls : cls.IsPlainClass) {t : TypeExpr} (ht : t.IsSane) :
    σ.replace? t t.args = some t ↔ (t.IsPlaceholder → t.NamesItself cls) := by
  have hscoped := scoped?_of_params hσ t.namespaces
  have hget := get?_of_params hσ t.name
  by_cases hname : t.namespaces = [] ∧ t.args = [] ∧ t.name = thisName
  · obtain ⟨hns, has, hn⟩ := hname
    have hholder : t.IsPlaceholder := .inl ⟨hns, has, hn⟩
    have htypename : cls = t.typename ↔ t.NamesItself cls := by
      rw [TypeExpr.typename, TypeExpr.NamesItself, hns, has, hn]
      obtain ⟨spaces, name, args⟩ := cls
      obtain rfl : args = [] := hcls.args
      simp [and_comm]
    rw [replace?_of_this hns has hn hget, hthis, Option.map_some, Option.some.injEq,
      TypeExpr.rename_eq_self_iff, htypename, ht.notBasic hholder]
    simp [hholder]
  · by_cases hpath : thisName ∈ t.namespaces
    · have hholder : t.IsPlaceholder := .inr hpath
      obtain ⟨⟨before, after⟩, hsplit⟩ :=
        Option.ne_none_iff_exists'.1 fun h => splitAtFirst?_eq_none.1 h hpath
      have hcut : pathOf cls ++ after = t.namespaces ↔ t.NamesItself cls := by
        rw [TypeExpr.NamesItself, takeWhile_of_split hsplit, (splitAtFirst?_eq_some hsplit).1,
          pathOf_plainClass hcls, List.append_assoc, List.singleton_append]
        constructor
        · intro h
          have hlast :
              (cls.namespaces ++ [cls.name]) ++ after = (before ++ [thisName]) ++ after := by
            simpa using h
          obtain ⟨hbefore, hname⟩ := List.append_inj' (List.append_cancel_right hlast) rfl
          exact ⟨List.singleton_inj.1 hname, hbefore⟩
        · rintro ⟨h, h'⟩
          rw [h, h']
      rw [replace?_of_inner hscoped hsplit, hthis, Option.map_some, Option.some.injEq,
        TypeExpr.rename_eq_self_iff, Typename.ofPath_of_head (head_plainClass hcls after),
        ht.notBasic hholder]
      simp [hholder, TypeExpr.typename, hcut]
    · have hnot : ¬ t.IsPlaceholder := not_or.2 ⟨hname, hpath⟩
      rw [replace?_of_plain hscoped (fun _ _ => hget) hname hpath, Typename.ofPath_of_head ht.head,
        Option.some.injEq, TypeExpr.rename_eq_self_iff]
      exact iff_of_true ⟨rfl, rfl⟩ fun h => absurd h hnot

/-- A type use stays as it was exactly if any `This` in it, at any depth, already means the
class. -/
theorem subst?_eq_self_iff (hσ : σ.params = []) (hthis : σ.this = some cls)
    (hcls : cls.IsPlainClass) {t : TypeExpr} (ht : ∀ u ∈ t.parts, u.IsSane) :
    σ.subst? t = some t ↔ ∀ u ∈ t.parts, u.IsPlaceholder → u.NamesItself cls := by
  induction t using TypeExpr.induct with
  | mk ns name args c i b ih =>
    have hself := ht _ (TypeExpr.self_mem_parts _)
    have hreplace := replace?_eq_self_iff hσ hthis hcls hself
    have hargs : ∀ a ∈ args, (σ.subst? a = some a ↔
        ∀ u ∈ a.parts, u.IsPlaceholder → u.NamesItself cls) := by
      intro a ha
      apply ih a ha
      intro u hu
      exact ht u (TypeExpr.mem_parts.2 (.inr ⟨a, ha, hu⟩))
    have hsteps : σ.subst? (.mk ns name args c i b) = some (.mk ns name args c i b) ↔
        (∀ a ∈ args, σ.subst? a = some a) ∧
          σ.replace? (.mk ns name args c i b) args = some (.mk ns name args c i b) := by
      rw [subst?_eq_some]
      constructor
      · rintro ⟨args', hall, hr⟩
        -- the arguments are not dropped, since there are no parameters
        obtain ⟨name', isBasic, hreplaced, he⟩ := replaced_of_replace? hr
        have hkept : args' = args := by
          have hargs' : name'.args = args :=
            congrArg Typename.args (TypeExpr.rename_eq_self_iff.1 he.symm).1
          obtain ⟨has, -, -⟩ | ⟨_, _, -, rfl, -⟩ | ⟨-, rfl, -⟩ := hreplaced.of_params hσ
          · obtain rfl : args = [] := has
            exact List.forall₂_nil_left_iff.1 hall
          · exact (Typename.ofPath_args _ _ _).symm.trans hargs'
          · exact (Typename.ofPath_args _ _ _).symm.trans hargs'
        rw [hkept] at hall hr
        exact ⟨List.forall₂_same.1 hall, hr⟩
      · rintro ⟨hall, hr⟩
        exact ⟨args, List.forall₂_same.2 hall, hr⟩
    rw [hsteps]
    refine (and_congr_right fun _ => hreplace).trans ?_
    constructor
    · rintro ⟨hall, hholder⟩ u hu
      rcases TypeExpr.mem_parts.1 hu with rfl | ⟨a, ha, hu⟩
      · exact hholder
      · exact (hargs a ha).1 (hall a ha) u hu
    · intro h
      constructor
      · intro a ha
        exact (hargs a ha).2 fun u hu => h u (TypeExpr.mem_parts.2 (.inr ⟨a, ha, hu⟩))
      · exact h _ (TypeExpr.self_mem_parts _)

theorem head_of_identifiers {ns : List String} (h : ∀ n ∈ ns, isIdentifier n = true) :
    ns.head? ≠ some "" := by
  intro he
  have hempty := h "" (List.mem_of_head? he)
  cases hempty

/-- What becomes of a type that can be written when `This` is replaced. -/
theorem isSane_of_subst? (hσ : σ.params = []) (hthis : σ.this = some cls)
    (hcls : cls.IsPlainClass) {inArgs : Bool} {t : TypeExpr} (ht : t.WellFormed inArgs)
    {t' : TypeExpr} (h : σ.subst? t = some t') : ∀ u ∈ t'.parts, u.IsSane := by
  revert t'
  refine ht.induct_mk (motive := fun t => ∀ {t'}, σ.subst? t = some t' →
    ∀ u ∈ t'.parts, u.IsSane) ?_
  intro ns name args c i b hns _ _ ih t' h u hu
  obtain ⟨args', hargs, hr⟩ := subst?_eq_some.1 h
  obtain ⟨name', isBasic, hreplaced, rfl⟩ := replaced_of_replace? hr
  -- the arguments of the new name are none or the substituted ones
  have hparts : (∀ a ∈ name'.args, a ∈ args') → TypeExpr.IsSane
      (TypeExpr.rename (.mk ns name args c i b) name' isBasic) → u.IsSane := by
    intro hmem hself
    rcases TypeExpr.mem_parts.1 hu with rfl | ⟨a, ha, hu⟩
    · exact hself
    · obtain ⟨s, hs, hsubst⟩ := exists_mem_of_forall₂ hargs.flip (hmem a ha)
      exact ih s hs hsubst u hu
  obtain ⟨-, hname, rfl⟩ | ⟨_, after, hcls', rfl, rfl⟩ | ⟨hplain, rfl, -⟩ := hreplaced.of_params hσ
  · cases hthis.symm.trans hname
    apply hparts
    · simp [hcls.args]
    · exact ⟨fun he => hcls.namespaces (List.mem_of_head? he), fun _ => rfl⟩
  · cases hthis.symm.trans hcls'
    rw [Typename.ofPath_of_head (head_plainClass hcls after)] at hparts
    exact hparts (fun _ ha => ha) ⟨head_plainClass hcls after, fun _ => rfl⟩
  · have hhead : (TypeExpr.mk ns name args c i b).namespaces.head? ≠ some "" :=
      head_of_identifiers hns
    rw [Typename.ofPath_of_head hhead] at hparts
    refine hparts (fun _ ha => ha) ⟨hhead, ?_⟩
    rintro (⟨hempty, hnil, hname⟩ | hmem)
    · obtain rfl : args' = [] := hnil
      exact absurd (.inl ⟨hempty, List.forall₂_nil_right_iff.1 hargs, hname⟩) hplain
    · exact absurd (.inr hmem) hplain

theorem eq_of_forall₂ {α : Type} {R : α → α → Prop} {as bs : List α} (h : List.Forall₂ R as bs)
    (heq : ∀ a ∈ as, ∀ b, R a b → b = a) : bs = as := by
  induction h with
  | nil => rfl
  | cons hab _ ih =>
    rw [List.forall_mem_cons] at heq
    rw [heq.1 _ hab, ih heq.2]

/-- Where nothing is bound and there is no class, only what stays can be substituted. -/
theorem eq_of_subst? (hσ : σ.params = []) (hthis : σ.this = none) {inArgs : Bool} {t : TypeExpr}
    (ht : t.WellFormed inArgs) {t' : TypeExpr} (h : σ.subst? t = some t') : t' = t := by
  revert t'
  refine ht.induct_mk (motive := fun t => ∀ {t'}, σ.subst? t = some t' → t' = t) ?_
  intro ns name args c i b hns _ _ ih t' h
  obtain ⟨args', hargs, hr⟩ := subst?_eq_some.1 h
  have hsame : args' = args := eq_of_forall₂ hargs fun a ha a' h => ih a ha h
  obtain ⟨name', isBasic, hreplaced, rfl⟩ := replaced_of_replace? hr
  obtain ⟨-, hname, -⟩ | ⟨_, _, hcls, -, -⟩ | ⟨-, hname, hbasic⟩ := hreplaced.of_params hσ
  · rw [hthis] at hname
    cases hname
  · rw [hthis] at hcls
    cases hcls
  · have hhead : (TypeExpr.mk ns name args c i b).namespaces.head? ≠ some "" :=
      head_of_identifiers hns
    rw [hname, hbasic, Typename.ofPath_of_head hhead, hsame]
    rfl

end Substitution

/-! ## Lists of types -/

namespace Substituted

variable {σ : Substitution} {ts us : List TypeExpr}

theorem exists_of_mem (h : Substituted (ts.map fun t => (σ, t)) us) {u : TypeExpr} (hu : u ∈ us) :
    ∃ t ∈ ts, σ.subst? t = some u := by
  obtain ⟨s, hs, hsubst⟩ := exists_mem_of_forall₂ h.flip hu
  obtain ⟨t, ht, rfl⟩ := List.mem_map.1 hs
  exact ⟨t, ht, hsubst⟩

/-- Types that stay in their places stay as they are. -/
theorem eq_self (h : Substituted (ts.map fun t => (σ, t)) ts) : ∀ t ∈ ts, σ.subst? t = some t := by
  rw [Substituted, List.forall₂_map_left_iff] at h
  exact List.forall₂_same.1 h

end Substituted

/-! ## Members -/

/-- Only a header leaves a record. -/
theorem provenanceOf_eq_none {template : Option Template} {name : String}
    {bindings : List TypeExpr} : provenanceOf template name bindings = none ↔ template = none :=
  Option.map_eq_none_iff

namespace Member

variable {x : ClassContext} {className : String} {bindings : List TypeExpr} {g m : Member}

/-- The types of an instance are those of the member, substituted in order. -/
theorem Made.substituted (h : Made x className bindings g m) :
    Substituted (g.types.map fun t => (x.bound g.template bindings, t)) m.types := by
  cases h with
  | ctor hargs => exact Substitution.substituted_arguments hargs
  | method hresult hargs => exact Substitution.substituted_callable hresult hargs
  | static hresult hargs => exact Substitution.substituted_callable hresult hargs
  | special hargs =>
    rw [Member.template, x.bound_none]
    exact Substitution.substituted_arguments hargs
  | operator hresult hargs =>
    rw [Member.template, x.bound_none]
    exact Substitution.substituted_callable hresult hargs
  | property htype =>
    rw [Member.template, x.bound_none]
    exact .cons htype .nil
  | enumeration d => exact .nil

/-- The only instance of a member without a header belongs to the instance of its class. -/
theorem Made.scoped {c y : ClassDecl} (h : Made x y.name [] g m) (hg : g.Scoped c)
    (htemplate : g.template = none) (howner : x.owner = y.selfType)
    (hspaces : y.namespaces = c.namespaces) : m.Scoped y := by
  have hprovenance : ∀ name, provenanceOf g.template name [] = none :=
    fun name => provenanceOf_eq_none.2 htemplate
  cases h with
  | ctor _ => exact ⟨generatedName_nil y.name, howner, hprovenance _⟩
  | method _ _ => exact ⟨howner, hprovenance _⟩
  | static _ _ => exact ⟨howner, hprovenance _⟩
  | special _ => exact howner
  | operator _ _ => exact howner
  | property _ =>
    obtain ⟨-, hns, ht, hp⟩ := hg
    exact ⟨congrArg some howner, hns.trans hspaces.symm, ht, hp⟩
  | enumeration d =>
    have hns : d.namespaces = c.namespaces := hg
    exact hns.trans hspaces.symm

end Member

/-! ## Classes -/

/-- The class records nothing, nor do its members, and any `This` in it already means the class. -/
structure ClassDecl.IsSettled (c : ClassDecl) : Prop where
  provenance : c.provenance = none
  members : ∀ m ∈ c.members, m.provenance = none
  types : ∀ t ∈ c.types, ∀ u ∈ t.parts, u.IsPlaceholder →
    u.NamesItself ⟨c.namespaces, c.name, []⟩

instance (c : ClassDecl) : Decidable c.IsSettled :=
  decidable_of_iff (c.provenance = none ∧ (∀ m ∈ c.members, m.provenance = none) ∧
      ∀ t ∈ c.types, ∀ u ∈ t.parts, u.IsPlaceholder → u.NamesItself ⟨c.namespaces, c.name, []⟩)
    ⟨fun h => ⟨h.1, h.2.1, h.2.2⟩, fun h => ⟨h.provenance, h.members, h.types⟩⟩

namespace ClassDecl.Made

variable {c y : ClassDecl} {bindings : List TypeExpr} {newName : Option String}
  {path : List String}

/-- Each member is made from a member of the class. -/
theorem exists_member (h : c.Made bindings newName y) {m : Member} (hm : m ∈ y.members) :
    ∃ g ∈ c.members, ∃ own ∈ combinationsOf g.template,
      Member.Made (c.frame bindings y.name) y.name own g m := by
  obtain ⟨g, hg, group, hgroup, hm⟩ := h.members.exists_of_mem hm
  obtain ⟨own, hown, hmade⟩ := exists_mem_of_forall₂ hgroup.flip hm
  exact ⟨g, hg, own, hown, hmade⟩

/-- A member that records nothing is made from one without a header. -/
theorem exists_plainMember (h : c.Made bindings newName y) {m : Member} (hm : m ∈ y.members)
    (hplain : m.provenance = none) : ∃ g ∈ c.members, g.template = none ∧
      Member.Made (c.frame bindings y.name) y.name [] g m := by
  obtain ⟨g, hg, own, hown, hmade⟩ := h.exists_member hm
  rw [hmade.provenance, provenanceOf_eq_none] at hplain
  rw [hplain, combinationsOf, List.mem_singleton] at hown
  exact ⟨g, hg, hplain, hown ▸ hmade⟩

/-- A class that records nothing is made from one without a header, whose name it has. -/
theorem unbound (h : c.Made bindings newName y) (hnew : newName = none ∨ bindings ≠ [])
    (hplain : y.provenance = none) : c.template = none ∧ bindings = [] ∧ y.name = c.name := by
  have htemplate : c.template = none := by
    rw [h.provenance, provenanceOf_eq_none] at hplain
    exact hplain
  have hlength := h.arity
  rw [htemplate] at hlength
  have hnil : bindings = [] := List.eq_nil_of_length_eq_zero hlength.symm
  have hnone : newName = none := hnew.resolve_right (absurd hnil)
  refine ⟨htemplate, hnil, ?_⟩
  rw [h.name, hnil, hnone]
  exact generatedName_nil c.name

theorem isPlainClass (h : c.Made bindings newName y) (hnew : newName = none ∨ bindings ≠ [])
    (hc : c.WellFormed path) (hpath : "" ∉ path) (hplain : y.provenance = none) :
    Typename.IsPlainClass ⟨y.namespaces, y.name, []⟩ := by
  obtain ⟨-, -, hname⟩ := h.unbound hnew hplain
  refine ⟨rfl, ?_, ?_⟩
  · show "" ∉ y.namespaces
    rw [h.namespaces, hc.namespaces_eq]
    exact hpath
  · show y.name ≠ ""
    rw [hname]
    rintro hempty
    have hclass := hc.isClassName
    rw [hempty] at hclass
    rcases hclass with hbasic | hidentifier
    · exact absurd hbasic (by decide)
    · exact absurd hidentifier (by decide)

/-- As a type, the class is its own name in its namespaces. -/
theorem selfType_eq (h : c.Made bindings newName y) (hplain : y.provenance = none)
    (hcls : Typename.IsPlainClass ⟨y.namespaces, y.name, []⟩) :
    y.selfType = ⟨y.namespaces, y.name, []⟩ := by
  rw [selfType, hplain, h.template, cppType, hplain]
  exact Typename.ofPath_of_not_mem hcls.namespaces _ _

/-- What is bound in a class that records nothing. -/
theorem frame_eq (h : c.Made bindings newName y) (hnew : newName = none ∨ bindings ≠ [])
    (hplain : y.provenance = none) :
    (c.frame bindings y.name).owner = y.selfType ∧
      (c.frame bindings y.name).substitution = ⟨[], some y.selfType⟩ := by
  obtain ⟨htemplate, rfl, hname⟩ := h.unbound hnew hplain
  have howner : (c.frame [] y.name).owner = y.selfType := by
    rw [selfType, hplain, h.template, cppType, hplain, h.namespaces, hname]
    rfl
  refine ⟨howner, ?_⟩
  rw [← howner, frame, context, htemplate]
  rfl

theorem template_eq_none (h : c.Made bindings newName y) : ∀ m ∈ y.members, m.template = none := by
  intro m hm
  obtain ⟨g, -, own, -, hmade⟩ := h.exists_member hm
  exact hmade.template

/-- If nothing is recorded, the members belong to the class. -/
theorem isScoped (h : c.Made bindings newName y) (hnew : newName = none ∨ bindings ≠ [])
    (hc : c.WellFormed path) (hplain : y.provenance = none)
    (hmembers : ∀ m ∈ y.members, m.provenance = none) : y.Scoped y.namespaces := by
  obtain ⟨howner, -⟩ := h.frame_eq hnew hplain
  refine ⟨rfl, hplain, ?_⟩
  intro m hm
  obtain ⟨g, hg, htemplate, hmade⟩ := h.exists_plainMember hm (hmembers m hm)
  exact hmade.scoped (hc.scoped.members g hg) htemplate howner h.namespaces

/-- If nothing is recorded, the types are those of a class that can be written, in which only `This`
is replaced. -/
theorem exists_type (h : c.Made bindings newName y) (hnew : newName = none ∨ bindings ≠ [])
    (hplain : y.provenance = none) (hmembers : ∀ m ∈ y.members, m.provenance = none)
    {t : TypeExpr} (ht : t ∈ y.types) :
    ∃ s ∈ c.types, Substitution.subst? ⟨[], some y.selfType⟩ s = some t := by
  obtain ⟨-, hbound⟩ := h.frame_eq hnew hplain
  rcases List.mem_append.1 ht with ht | ht
  · have hparent := h.parent
    change (c.frame bindings y.name).substitution.substOption? c.parent = some y.parent at hparent
    rw [hbound] at hparent
    obtain ⟨s, hs, hsubst⟩ := (Substitution.substituted_option hparent).exists_of_mem ht
    exact ⟨s, List.mem_append_left _ hs, hsubst⟩
  · obtain ⟨m, hm, ht⟩ := List.mem_flatMap.1 ht
    obtain ⟨g, hg, htemplate, hmade⟩ := h.exists_plainMember hm (hmembers m hm)
    have htypes := hmade.substituted
    rw [htemplate, ClassContext.bound_none, hbound] at htypes
    obtain ⟨s, hs, hsubst⟩ := htypes.exists_of_mem ht
    exact ⟨s, List.mem_append_right _ (List.mem_flatMap.2 ⟨g, hg, hs⟩), hsubst⟩

/-- A type of the class stays exactly if any `This` in it already means the class. -/
theorem subst?_eq_self_iff (h : c.Made bindings newName y)
    (hnew : newName = none ∨ bindings ≠ []) (hc : c.WellFormed path) (hpath : "" ∉ path)
    (hplain : y.provenance = none) (hmembers : ∀ m ∈ y.members, m.provenance = none)
    {t : TypeExpr} (ht : t ∈ y.types) :
    Substitution.subst? ⟨[], some y.selfType⟩ t = some t ↔
      ∀ u ∈ t.parts, u.IsPlaceholder → u.NamesItself ⟨y.namespaces, y.name, []⟩ := by
  obtain ⟨s, hs, hsubst⟩ := h.exists_type hnew hplain hmembers ht
  obtain ⟨inArgs, hwf⟩ := hc.types s hs
  have hcls := h.isPlainClass hnew hc hpath hplain
  rw [h.selfType_eq hplain hcls] at hsubst ⊢
  exact Substitution.subst?_eq_self_iff rfl rfl hcls
    (Substitution.isSane_of_subst? rfl rfl hcls hwf hsubst)

/-- A class that is settled is its own instance. -/
theorem stays (h : c.Made bindings newName y) (hnew : newName = none ∨ bindings ≠ [])
    (hc : c.WellFormed path) (hpath : "" ∉ path) (hy : y.IsSettled) :
    (Declaration.cls y).Stays := by
  have hscoped := h.isScoped hnew hc hy.provenance hy.members
  refine ⟨h.template, expand_eq_pure hscoped h.template h.template_eq_none ?_ y.span⟩
  intro t ht
  exact (h.subst?_eq_self_iff hnew hc hpath hy.provenance hy.members ht).2 (hy.types t ht)

/-- A class that is its own instance is settled. -/
theorem isSettled (h : c.Made bindings newName y) (hnew : newName = none ∨ bindings ≠ [])
    (hc : c.WellFormed path) (hpath : "" ∉ path) (hagain : y.Made [] none y) : y.IsSettled := by
  have hplain : y.provenance = none := by
    rw [hagain.provenance, h.template]
    rfl
  obtain ⟨-, hbound⟩ := hagain.frame_eq (.inl rfl) hplain
  -- without headers, each member has one instance, which is itself
  have hself : ∀ m ∈ y.members, Member.Made (y.frame [] y.name) y.name [] m m := by
    intro m hm
    have hgroup := hagain.members.self (by
      intro m hm group hgroup
      rw [Member.Instances, h.template_eq_none m hm, combinationsOf] at hgroup
      exact List.length_eq_one_iff.1 hgroup.length_eq.symm) m hm
    rw [Member.Instances, h.template_eq_none m hm] at hgroup
    exact (List.forall₂_cons.1 hgroup).1
  have hmembers : ∀ m ∈ y.members, m.provenance = none := by
    intro m hm
    rw [(hself m hm).provenance, h.template_eq_none m hm]
    rfl
  refine ⟨hplain, hmembers, ?_⟩
  intro t ht
  rw [← h.subst?_eq_self_iff hnew hc hpath hplain hmembers ht]
  rcases List.mem_append.1 ht with ht | ht
  · have hparent := hagain.parent
    change (y.frame [] y.name).substitution.substOption? y.parent = some y.parent at hparent
    rw [hbound] at hparent
    exact (Substitution.substituted_option hparent).eq_self t ht
  · obtain ⟨m, hm, ht⟩ := List.mem_flatMap.1 ht
    have htypes := (hself m hm).substituted
    rw [h.template_eq_none m hm, ClassContext.bound_none, hbound] at htypes
    exact htypes.eq_self t ht

end ClassDecl.Made

/-! ## Free declarations -/

/-- Without a header, nothing is bound. -/
theorem extend_of_provenanceOf {template : Option Template} {name : String}
    {bindings : List TypeExpr} (h : provenanceOf template name bindings = none) :
    Substitution.empty.extend (paramNames template) bindings = .empty := by
  rw [provenanceOf_eq_none.1 h]
  rfl

/-- Types that can be written and in which nothing is bound are substituted by themselves. -/
theorem Substituted.subst?_eq_self {ts us : List TypeExpr}
    (h : Substituted (ts.map fun t => (Substitution.empty, t)) us)
    (hts : ∀ t ∈ ts, ∃ inArgs, t.WellFormed inArgs) :
    ∀ u ∈ us, Substitution.empty.subst? u = some u := by
  intro u hu
  obtain ⟨t, ht, hsubst⟩ := h.exists_of_mem hu
  obtain ⟨inArgs, hwf⟩ := hts t ht
  obtain rfl := Substitution.eq_of_subst? rfl rfl hwf hsubst
  exact hsubst

theorem FunctionDecl.stays {d y : FunctionDecl} {bindings : List TypeExpr}
    {newName : Option String} {path : List String} (h : d.instantiate bindings newName = .ok y)
    (hd : Declaration.WellFormed path (.function d)) (hplain : y.provenance = none) :
    (Declaration.function y).Stays := by
  obtain ⟨-, result, args, hresult, hargs, rfl⟩ := eq_of_instantiate h
  rw [extend_of_provenanceOf hplain] at hresult hargs
  have htypes : ∀ t ∈ d.result.types ++ argumentTypes d.args, ∃ inArgs, t.WellFormed inArgs := by
    cases hd with
    | function _ hr ha _ => exact List.forall_mem_append.2 ⟨hr.types, argumentTypes_wellFormed ha⟩
  refine ⟨rfl, instantiate_eq_self rfl hplain ?_⟩
  exact (Substitution.substituted_callable hresult hargs).subst?_eq_self htypes

theorem VariableDecl.stays {d y : VariableDecl} {bindings : List TypeExpr}
    {newName : Option String} {path : List String} (h : d.instantiate bindings newName = .ok y)
    (hd : Declaration.WellFormed path (.var d)) (hplain : y.provenance = none) :
    (Declaration.var y).Stays := by
  obtain ⟨-, type, htype, rfl⟩ := eq_of_instantiate h
  rw [extend_of_provenanceOf hplain] at htype
  have hwf : ∃ inArgs, d.type.WellFormed inArgs := by
    cases hd with
    | var hwf => exact ⟨_, hwf⟩
  refine ⟨rfl, instantiate_eq_self rfl hplain ?_⟩
  obtain ⟨inArgs, hwf⟩ := hwf
  have hsame : type = d.type := Substitution.eq_of_subst? rfl rfl hwf htype
  rw [hsame] at htype ⊢
  exact htype

/-! ## Whole files -/

/-- An instance that is left as it is when it is expanded again. Forward declarations without a
header are always left as they are. -/
def Declaration.IsSettled : Declaration → Prop
  | .cls c => c.IsSettled
  | .function d => d.provenance = none
  | .var d => d.provenance = none
  | .inclusion _ | .space _ _ _ | .enumeration _ | .forward _ | .typedef _ => True

instance : (d : Declaration) → Decidable d.IsSettled
  | .cls c => inferInstanceAs (Decidable c.IsSettled)
  | .function d => inferInstanceAs (Decidable (d.provenance = none))
  | .var d => inferInstanceAs (Decidable (d.provenance = none))
  | .inclusion _ | .space _ _ _ | .enumeration _ | .forward _ | .typedef _ => .isTrue trivial

section Blocks

variable {index : TypedefIndex} {block : Content}

/-- Without a header, an instance without bindings stands in the block. -/
theorem Block.of_cls {c : ClassDecl} (h : Block index (.cls c) block) (ht : c.template = none) :
    ∃ y, c.instantiate [] none = .ok y ∧ block = [.cls y] := by
  cases h with
  | cls h =>
    rw [ht] at h
    obtain ⟨y, hy, rfl⟩ := h
    exact ⟨y, hy, rfl⟩

theorem Block.of_function {d : FunctionDecl} (h : Block index (.function d) block)
    (ht : d.template = none) : ∃ y, d.instantiate [] none = .ok y ∧ block = [.function y] := by
  cases h with
  | function h =>
    rw [ht] at h
    obtain ⟨y, hy, rfl⟩ := h
    exact ⟨y, hy, rfl⟩

theorem Block.of_var {d : VariableDecl} (h : Block index (.var d) block)
    (ht : d.template = none) : ∃ y, d.instantiate [] none = .ok y ∧ block = [.var y] := by
  cases h with
  | var h =>
    rw [ht] at h
    obtain ⟨y, hy, rfl⟩ := h
    exact ⟨y, hy, rfl⟩

theorem Block.eq_singleton {d : Declaration} (h : Block index d block) (hd : d.HeaderFree) :
    ∃ x, block = [x] := by
  cases d with
  | cls c =>
    obtain ⟨y, -, rfl⟩ := h.of_cls hd.template
    exact ⟨_, rfl⟩
  | function d =>
    obtain ⟨y, -, rfl⟩ := h.of_function hd
    exact ⟨_, rfl⟩
  | var d =>
    obtain ⟨y, -, rfl⟩ := h.of_var hd
    exact ⟨_, rfl⟩
  | forward d =>
    cases h with
    | plainForward => exact ⟨_, rfl⟩
    | forward ht =>
      have hnone : d.template = none := hd
      rw [hnone] at ht
      cases ht
  | typedef d => exact hd.elim
  | space name content span =>
    cases h
    exact ⟨_, rfl⟩
  | inclusion d =>
    cases h
    exact ⟨_, rfl⟩
  | enumeration d =>
    cases h
    exact ⟨_, rfl⟩

/-- Where declarations without headers are expanded to themselves, so is each of them at any
depth. -/
theorem Blocks.self {ds : Content} {path : List String} {d : Declaration} (hd : ds.Has path d)
    (h : Blocks index ds ds) (hfree : ∀ path d, ds.Has path d → d.HeaderFree) :
    Block index d [d] := by
  have hstep : ∀ {ds : Content}, Blocks index ds ds →
      (∀ path d, ds.Has path d → d.HeaderFree) → ∀ d ∈ ds, Block index d [d] := by
    intro ds h hfree
    exact h.grouped.self fun d hd block hblock => hblock.eq_singleton (hfree [] d (.here hd))
  induction hd with
  | here hd => exact hstep h hfree _ hd
  | inside hs _ ih =>
    obtain ⟨content, he, hcontent⟩ :=
      (hstep h hfree _ hs).of_space_mem (List.mem_singleton_self _)
    cases he
    exact ih hcontent fun path d hd => hfree _ d (.inside hs hd)

end Blocks

namespace Declaration.Made

variable {g x : Declaration} {path : List String}

theorem stays (h : g.Made x) (hg : g.WellFormed path) (hpath : "" ∉ path) (hx : x.IsSettled) :
    x.Stays := by
  have hfree := h.headerFree hg.scoped
  cases h with
  | cls hnew h =>
    cases hg with
    | cls hc => exact h.stays hnew hc hpath hx
  | function _ h => exact FunctionDecl.stays h hg hx
  | var h => exact VariableDecl.stays h hg hx
  | plainForward _ => exact hfree
  | forward _ => exact hfree
  | _ => trivial

theorem isSettled (h : g.Made x) (hg : g.WellFormed path) (hpath : "" ∉ path)
    {index : TypedefIndex} (hagain : Block index x [x]) : x.IsSettled := by
  have hfree := h.headerFree hg.scoped
  cases h with
  | cls hnew h =>
    cases hg with
    | cls hc =>
      obtain ⟨y, hy, hsame⟩ := hagain.of_cls hfree.template
      cases hsame
      exact h.isSettled hnew hc hpath (ClassDecl.made_of_expand hy)
  | @function _ d _ _ _ _ =>
    have hnone : d.template = none := hfree
    obtain ⟨y, hy, hsame⟩ := hagain.of_function hnone
    cases hsame
    obtain ⟨-, result, args, -, -, he⟩ := FunctionDecl.eq_of_instantiate hy
    exact (congrArg FunctionDecl.provenance he).trans (provenanceOf_eq_none.2 hnone)
  | @var _ d _ _ =>
    have hnone : d.template = none := hfree
    obtain ⟨y, hy, hsame⟩ := hagain.of_var hnone
    cases hsame
    obtain ⟨-, type, -, he⟩ := VariableDecl.eq_of_instantiate hy
    exact (congrArg VariableDecl.provenance he).trans (provenanceOf_eq_none.2 hnone)
  | _ => trivial

end Declaration.Made

namespace Interface

/-- A file that is read and expanded is left as it is by another expansion, under any policy,
exactly if all its declarations are settled. -/
theorem instantiate_again_iff {source : String} {m out : Interface} (hm : parse source = .ok m)
    {policy : CollisionPolicy} (h : m.instantiate policy = .ok out) (again : CollisionPolicy) :
    out.instantiate again = .ok out ↔ ∀ path d, out.content.Has path d → d.IsSettled := by
  obtain ⟨content, hc, rfl⟩ := except_map_ok h
  have hblocks := blocks_of_expandContent _ [] m.content (Expansion.outcome_of_settle hc)
  have hwf := wellFormed_of_parse hm
  have hmade : ∀ path x, content.Has path x →
      ∃ (g : Declaration) (path' : List String), g.WellFormed path' ∧ "" ∉ path' ∧ g.Made x := by
    intro path x hx
    obtain ⟨d, block, hd, hblock, hmem⟩ := hblocks.exists_block hx
    obtain ⟨path', g, hg, -, hmade⟩ := made_of_block hd (hd.wellFormed hwf) hblock hmem
    exact ⟨g, path', hg.wellFormed hwf, hg.names hwf, hmade⟩
  constructor
  · intro hagain path d hd
    obtain ⟨content', hc', he⟩ := except_map_ok hagain
    cases he
    have hself := blocks_of_expandContent _ [] content (Expansion.outcome_of_settle hc')
    have hfree : ∀ path d, content.Has path d → d.HeaderFree := by
      intro path d hd
      obtain ⟨g, path', hg, -, hmade⟩ := hmade path d hd
      exact hmade.headerFree hg.scoped
    obtain ⟨g, path', hg, hnames, hmade⟩ := hmade path d hd
    exact hmade.isSettled hg hnames (Blocks.self hd hself hfree)
  · intro hsettled
    have hreturns : (expandContent (.ofContent content) [] content).Returns content := by
      apply returns_of_stays
      intro path d hd
      obtain ⟨g, path', hg, hnames, hmade⟩ := hmade path d hd
      exact hmade.stays hg hnames (hsettled path d hd)
    show ((expandContent (.ofContent content) [] content).settle again).map Interface.mk = _
    rw [hreturns.settle again]
    rfl

/-- A class with `This` and a function in a namespace, and an instance of a class that is declared
elsewhere. -/
def nodes : String :=
  "class Ext; namespace graph \x7b class Node \x7b Node(This other); This next() const; int key; \x7d; void visit(Node n); \x7d"
    ++ " typedef Ext<int> IntExt;"

/-- The class and the function are settled, and the forward declaration is left as it is although it
has a record. -/
theorem nodes_again : ∃ m out : Interface, parse nodes = .ok m ∧ m.instantiate .error = .ok out ∧
    out.content.names = ["Ext", "graph", "IntExt"] ∧ out.instantiate .error = .ok out := by
  have hrun : ((parse nodes).toOption.any fun m =>
      (m.instantiate .error).toOption.any fun out : Interface =>
        decide (out.content.names = ["Ext", "graph", "IntExt"] ∧
          ∀ d ∈ contentNested out.content, d.IsSettled)) = true := by
    decide +kernel
  simp only [Option.any_eq_true, decide_eq_true_eq] at hrun
  obtain ⟨m, hm, out, hout, hnames, hsettled⟩ := hrun
  have hparse := except_ok_of_toOption hm
  have hexpand := except_ok_of_toOption hout
  refine ⟨m, out, hparse, hexpand, hnames, (instantiate_again_iff hparse hexpand .error).2 ?_⟩
  intro path d hd
  exact hsettled d (mem_contentNested.2 ⟨path, hd⟩)

/-- One instance of a class. -/
def lone : String := "template<T = \x7bint\x7d> class Foo \x7b\x7d;"

/-- It records the type that it was made with, and that record is gone when the file is expanded
again. -/
theorem not_instantiate_again : ∃ m out : Interface, parse lone = .ok m ∧
    m.instantiate .warn = .ok out ∧ out.instantiate .warn ≠ .ok out := by
  have hrun : ((parse lone).toOption.any fun m => (m.instantiate .warn).toOption.any fun out =>
      (out.content.classes.any fun c => c.provenance.isSome) &&
        (out.instantiate .warn).toOption.all fun again =>
          again.content.classes.all fun c => c.provenance.isNone) = true := by
    decide +kernel
  simp only [Option.any_eq_true, Bool.and_eq_true, List.any_eq_true] at hrun
  obtain ⟨m, hm, out, hout, ⟨c, hc, hrecord⟩, hagain⟩ := hrun
  refine ⟨m, out, except_ok_of_toOption hm, except_ok_of_toOption hout, ?_⟩
  intro hsame
  rw [hsame] at hagain
  have hnone := List.all_eq_true.1 hagain c hc
  rw [Option.isNone_iff_eq_none] at hnone
  rw [hnone] at hrecord
  cases hrecord

end Interface

end TemplateIdl
