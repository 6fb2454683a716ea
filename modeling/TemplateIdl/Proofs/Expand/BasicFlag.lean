import TemplateIdl.Proofs.Expand.Closed
import TemplateIdl.Proofs.Expand.NewName

/-!
# BasicFlag — what tells built-in types from others

Whether a type use means a built-in type is not found out from its name each time but written down
with it. Substitution sets the flag by hand: in most cases it is cleared, and otherwise it comes
from the type use or from the type that is bound.

* `TypeExpr.IsTruthful`, a type use whose flag says what its name says, and `TypeExpr.IsConsistent`,
  one that is truthful at all depths;
* `Substitution.IsConsistent`, consistent types for the parameters and for the arguments of the
  class, which is no built-in type;
* `Substitution.consistent_of_subst?`, substitution keeps flags truthful;
* `Declaration.heldTypes`, all types in a declaration, those in its records included;
* `Declaration.Issues.consistent` and `Interface.consistent_subst?_and_heldTypes`, so flags are
  truthful in expanded files.
-/

namespace TemplateIdl

/-! ## Truthful flags -/

/-- No part of the name is empty, and the flag tells whether the name is that of a built-in type. -/
structure TypeExpr.IsTruthful (u : TypeExpr) : Prop where
  namespaces : "" ∉ u.namespaces
  name : u.name ≠ ""
  flag : u.isBasic = u.typename.isBasic

instance (u : TypeExpr) : Decidable u.IsTruthful :=
  decidable_of_iff ("" ∉ u.namespaces ∧ u.name ≠ "" ∧ u.isBasic = u.typename.isBasic)
    ⟨fun h => ⟨h.1, h.2.1, h.2.2⟩, fun h => ⟨h.namespaces, h.name, h.flag⟩⟩

/-- The type use is truthful at all depths. -/
def TypeExpr.IsConsistent (t : TypeExpr) : Prop := ∀ u ∈ t.parts, u.IsTruthful

instance (t : TypeExpr) : Decidable t.IsConsistent :=
  inferInstanceAs (Decidable (∀ u ∈ t.parts, _))

/-- A name that `This` can stand for: it has no empty part, is not that of a built-in type, and its
arguments are consistent. -/
structure Typename.IsProper (cls : Typename) : Prop where
  namespaces : "" ∉ cls.namespaces
  name : cls.name ≠ ""
  notBasic : cls.isBasic = false
  args : ∀ a ∈ cls.args, a.IsConsistent

instance (cls : Typename) : Decidable cls.IsProper :=
  decidable_of_iff ("" ∉ cls.namespaces ∧ cls.name ≠ "" ∧ cls.isBasic = false ∧
      ∀ a ∈ cls.args, a.IsConsistent)
    ⟨fun h => ⟨h.1, h.2.1, h.2.2.1, h.2.2.2⟩, fun h => ⟨h.namespaces, h.name, h.notBasic, h.args⟩⟩

/-- The types that are bound are consistent, and `This` stands for nothing or for a class with a
proper name. -/
structure Substitution.IsConsistent (σ : Substitution) : Prop where
  params : ∀ q ∈ σ.params, q.2.IsConsistent
  this : ∀ cls ∈ σ.this, cls.IsProper

instance (σ : Substitution) : Decidable σ.IsConsistent :=
  decidable_of_iff ((∀ q ∈ σ.params, q.2.IsConsistent) ∧ ∀ cls ∈ σ.this, cls.IsProper)
    ⟨fun h => ⟨h.1, h.2⟩, fun h => ⟨h.params, h.this⟩⟩

theorem TypeExpr.isConsistent_iff {t : TypeExpr} :
    t.IsConsistent ↔ t.IsTruthful ∧ ∀ a ∈ t.args, a.IsConsistent :=
  forall_mem_parts

namespace TypeExpr.WellFormed

variable {inArgs : Bool} {t : TypeExpr}

theorem isTruthful (h : t.WellFormed inArgs) : t.IsTruthful := by
  have hparts : "" ∉ t.namespaces ∧ t.name ≠ "" := by
    refine h.induct_mk (motive := fun t => "" ∉ t.namespaces ∧ t.name ≠ "") ?_
    intro ns name as c i b hns hname _ _
    constructor
    · intro hempty
      exact absurd (hns "" hempty) (by decide)
    · rintro rfl
      obtain ⟨c, l, hl, -⟩ := hname.head
      cases hl
  exact ⟨hparts.1, hparts.2, (congrArg isBasic h.ofTypename_typename).symm⟩

/-- What can be written is consistent. -/
theorem isConsistent (h : t.WellFormed inArgs) : t.IsConsistent := by
  induction t using TypeExpr.induct generalizing inArgs with
  | mk ns name as c i b ih =>
    exact isConsistent_iff.2 ⟨h.isTruthful, fun a ha => ih a ha (h.args a ha)⟩

end TypeExpr.WellFormed

/-! ## Substitution -/

namespace Substitution

variable {σ : Substitution} {t t' : TypeExpr} {path : List String} {name : String}
  {args : List TypeExpr}

/-- A type use is consistent with a new name in it that the new flag fits. -/
theorem consistent_rename {new : Typename} {isBasic : Bool} (hns : "" ∉ new.namespaces)
    (hname : new.name ≠ "") (hflag : isBasic = new.isBasic)
    (hargs : ∀ a ∈ new.args, a.IsConsistent) : (t.rename new isBasic).IsConsistent :=
  TypeExpr.isConsistent_iff.2 ⟨⟨hns, hname, hflag⟩, hargs⟩

/-- A name inside a namespace is not that of a built-in type. -/
theorem consistent_rename_ofPath (hpath : "" ∉ path) (hne : path ≠ []) (hname : name ≠ "")
    (hargs : ∀ a ∈ args, a.IsConsistent) :
    (t.rename (.ofPath path name args) false).IsConsistent := by
  rw [Typename.ofPath_of_not_mem hpath]
  refine consistent_rename hpath hname ?_ hargs
  simp [Typename.isBasic, hne]

/-- Substitution keeps flags truthful, whichever way the type use is replaced. -/
theorem consistent_of_subst? (hσ : σ.IsConsistent) (ht : t.IsConsistent)
    (h : σ.subst? t = some t') : t'.IsConsistent := by
  induction t using TypeExpr.induct generalizing t' with
  | mk ns name as c i b ih =>
    obtain ⟨⟨hns, hname, hflag⟩, has⟩ := TypeExpr.isConsistent_iff.1 ht
    obtain ⟨args, hargs, hreplace⟩ := subst?_eq_some.1 h
    have hconsistent : ∀ a' ∈ args, a'.IsConsistent := by
      intro a' ha'
      obtain ⟨a, ha, hsubst⟩ := exists_mem_of_forall₂ hargs.flip ha'
      exact ih a ha (has a ha) hsubst
    obtain ⟨new, isBasic, hreplaced, rfl⟩ := replaced_of_replace? hreplace
    cases hreplaced with
    | @segment before after bound hscoped =>
      -- the path has the segments of what is bound in it
      obtain ⟨p, hp, hpath⟩ := scoped?_eq_some hscoped
      obtain ⟨⟨hbns, hbname, -⟩, -⟩ := TypeExpr.isConsistent_iff.1 (hσ.params _ hp)
      have hbound : "" ∉ pathOf bound.typename := not_mem_pathOf hbns hbname
      rw [hpath, List.mem_append, List.mem_cons, not_or, not_or] at hns
      refine consistent_rename_ofPath ?_ ?_ hname nofun
      · simp [hns.1, hns.2.2, hbound]
      · simp [pathOf_ne_nil]
    | param _ _ hget =>
      -- the flag comes with the type that is bound
      obtain ⟨⟨hbns, hbname, hbflag⟩, hbargs⟩ :=
        TypeExpr.isConsistent_iff.1 (hσ.params _ (mem_of_get?_eq_some hget))
      exact consistent_rename hbns hbname hbflag hbargs
    | this _ _ _ _ hthis =>
      have hcls := hσ.this _ hthis
      exact consistent_rename hcls.namespaces hcls.name hcls.notBasic.symm hcls.args
    | @inner before after cls _ hsplit hthis =>
      have hcls := hσ.this _ hthis
      have hown : "" ∉ pathOf cls := not_mem_pathOf hcls.namespaces hcls.name
      rw [(splitAtFirst?_eq_some hsplit).1, List.mem_append, List.mem_cons, not_or, not_or] at hns
      refine consistent_rename_ofPath ?_ ?_ hname hconsistent
      · simp [hown, hns.2.2]
      · simp [pathOf_ne_nil]
    | plain =>
      -- the flag stays, and there are arguments exactly if there were some
      have hlength : as.length = args.length := hargs.length_eq
      have hempty : args.isEmpty = as.isEmpty := by
        rw [Bool.eq_iff_iff, List.isEmpty_iff_length_eq_zero, List.isEmpty_iff_length_eq_zero,
          hlength]
      rw [Typename.ofPath_of_not_mem hns]
      refine consistent_rename hns hname ?_ hconsistent
      rw [hflag]
      simp [Typename.isBasic, TypeExpr.typename, TypeExpr.args, hempty]

theorem IsConsistent.extend (h : σ.IsConsistent) (names : List String) {types : List TypeExpr}
    (ht : ∀ t ∈ types, t.IsConsistent) : (σ.extend names types).IsConsistent where
  params q hq := by
    rcases List.mem_append.1 hq with hq | hq
    · exact h.params q hq
    · exact ht q.2 (List.of_mem_zip hq).2
  this := h.this

theorem isConsistent_empty : empty.IsConsistent := ⟨nofun, nofun⟩

end Substitution

/-! ## Types in instances -/

/-- The type is consistent, and so is what is bound in it. -/
def TypeUse.IsConsistent : TypeUse → Prop
  | .copied t => t.IsConsistent
  | .bound σ t => σ.IsConsistent ∧ t.IsConsistent

/-- Consistent uses become consistent types. -/
theorem TypeUse.consistent_of_becomes {uses : List TypeUse} {ts : List TypeExpr}
    (h : List.Forall₂ Becomes uses ts) (hu : ∀ u ∈ uses, u.IsConsistent) :
    ∀ t ∈ ts, t.IsConsistent := by
  intro t ht
  obtain ⟨u, hmem, hbecomes⟩ := exists_mem_of_forall₂ h.flip ht
  have hconsistent := hu u hmem
  cases hbecomes with
  | copied => exact hconsistent
  | bound hsubst => exact Substitution.consistent_of_subst? hconsistent.1 hconsistent.2 hsubst

theorem consistent_of_wellFormed {ts : List TypeExpr}
    (h : ∀ t ∈ ts, ∃ inArgs, t.WellFormed inArgs) : ∀ t ∈ ts, t.IsConsistent := by
  intro t ht
  obtain ⟨inArgs, hwf⟩ := h t ht
  exact hwf.isConsistent

theorem Requested.consistent {template : Option Template} {bindings : List TypeExpr}
    {newName : Option String} (h : Requested template bindings newName)
    (ht : ∀ t ∈ template, t.WellFormed) : ∀ b ∈ bindings, b.IsConsistent :=
  fun b hb => (h.wellFormed ht b hb).isConsistent

theorem consistent_headerUses (template : Option Template) {bindings ts : List TypeExpr}
    (hb : ∀ b ∈ bindings, b.IsConsistent) (hts : ∀ t ∈ ts, t.IsConsistent) :
    ∀ u ∈ headerUses template bindings ts, u.IsConsistent := by
  intro u hu
  obtain ⟨t, ht, rfl⟩ := List.mem_map.1 hu
  exact ⟨Substitution.isConsistent_empty.extend _ hb, hts t ht⟩

namespace ClassDecl

variable {path : List String} {c : ClassDecl} {bindings : List TypeExpr}

/-- What is bound in an instance of a class that is not named like a built-in type. -/
theorem WellFormed.consistent_bound (hc : c.WellFormed path) (hpath : "" ∉ path)
    (hname : c.name ∉ basicTypeNames) (hb : ∀ b ∈ bindings, b.IsConsistent) :
    (c.bound bindings).IsConsistent where
  params := (Substitution.isConsistent_empty.extend _ hb).params
  this cls hcls := by
    cases hcls
    rw [hc.namespaces_eq, Typename.ofPath_of_not_mem hpath]
    exact ⟨hpath, hc.isClassName.ne_empty, Typename.isBasic_eq_false hname, hb⟩

theorem WellFormed.consistent_uses (hc : c.WellFormed path) (hpath : "" ∉ path)
    (hname : c.name ∉ basicTypeNames) (hb : ∀ b ∈ bindings, b.IsConsistent) :
    ∀ u ∈ Target.uses bindings (.cls c), u.IsConsistent := by
  intro u hu
  obtain ⟨s, hs, rfl⟩ := List.mem_map.1 hu
  obtain ⟨htype, names, types, hbound, htypes, -⟩ := mem_uses hs
  refine ⟨?_, consistent_of_wellFormed hc.types _ htype⟩
  rw [hbound]
  apply (hc.consistent_bound hpath hname hb).extend
  -- what the header of a member lists can be written
  intro b hmem
  obtain ⟨m, hm, t, ht, q, hq, hchoice⟩ := htypes b hmem
  obtain ⟨head, hmember⟩ := hc.member hm
  exact (((hmember.template t ht).params q hq).choices b hchoice).isConsistent

end ClassDecl

/-! ## Types in records -/

/-- Types that a member records: those for its own parameters, and those of its class. -/
def Member.recordedTypes : Member → List TypeExpr
  | .ctor d => recordedBindings d.provenance ++ d.owner.args
  | .method d => recordedBindings d.provenance ++ d.owner.args
  | .static d => recordedBindings d.provenance ++ d.owner.args
  | .special d => d.owner.args
  | .operator d => d.owner.args
  | .property d => recordedBindings d.provenance ++ d.owner.toList.flatMap Typename.args
  | .enumeration _ => []

/-- The types in a declaration, but for those that headers list: the ones that it uses and the ones
that it records. Those inside a namespace are held by other declarations. -/
def Declaration.heldTypes : Declaration → List TypeExpr
  | .cls d => d.types ++ (recordedBindings d.provenance ++ d.members.flatMap Member.recordedTypes)
  | .forward d => d.parent.toList ++ (d.typename.args ++ recordedBindings d.provenance)
  | .var d => d.type :: (recordedBindings d.provenance ++ d.owner.toList.flatMap Typename.args)
  | .function d => (d.result.types ++ argumentTypes d.args) ++ recordedBindings d.provenance
  | .typedef d => d.target.args
  | .inclusion _ | .space _ _ _ | .enumeration _ => []

/-- A record has no other types than those that were bound. -/
theorem consistent_provenanceOf {template : Option Template} {name : String}
    {bindings : List TypeExpr} (hb : ∀ b ∈ bindings, b.IsConsistent) :
    ∀ t ∈ recordedBindings (provenanceOf template name bindings), t.IsConsistent := by
  cases template with
  | none => exact nofun
  | some t => exact hb

theorem Member.Made.consistent {x : ClassContext} {className : String} {own : List TypeExpr}
    {g m : Member} (h : Made x className own g m) {c : ClassDecl} (hg : g.Scoped c)
    (hown : ∀ b ∈ own, b.IsConsistent) (howner : ∀ b ∈ x.owner.args, b.IsConsistent) :
    ∀ t ∈ m.recordedTypes, t.IsConsistent := by
  cases h with
  | ctor => exact List.forall_mem_append.2 ⟨consistent_provenanceOf hown, howner⟩
  | method => exact List.forall_mem_append.2 ⟨consistent_provenanceOf hown, howner⟩
  | static => exact List.forall_mem_append.2 ⟨consistent_provenanceOf hown, howner⟩
  | special => exact howner
  | operator => exact howner
  | @property d type _ =>
    -- properties have no header, so they record nothing of their own
    have hplain : d.provenance = none := hg.2.2.2
    rw [recordedTypes, hplain]
    exact List.forall_mem_append.2 ⟨nofun, by simpa using howner⟩
  | enumeration => exact nofun

namespace ClassDecl

variable {path : List String} {c y : ClassDecl} {bindings : List TypeExpr}
  {newName : Option String}

/-- The members of an instance record what their own headers list and what the class is bound to. -/
theorem Made.consistent_members (h : c.Made bindings newName y) (hc : c.WellFormed path)
    (hb : ∀ b ∈ bindings, b.IsConsistent) :
    ∀ m ∈ y.members, ∀ t ∈ m.recordedTypes, t.IsConsistent := by
  intro m hm
  obtain ⟨g, hg, own, hown, hmade⟩ := h.exists_member hm
  obtain ⟨head, hwf⟩ := hc.member hg
  refine hmade.consistent (hc.scoped.members g hg) ?_ ?_
  · exact (Requested.listed hown).consistent hwf.template
  · intro b hmem
    apply hb
    rwa [frame, context, Typename.ofPath_args] at hmem

theorem WellFormed.consistent_instance (hc : c.WellFormed path) (hpath : "" ∉ path)
    (hname : c.name ∉ basicTypeNames) (hb : ∀ b ∈ bindings, b.IsConsistent)
    (h : c.instantiate bindings newName = .ok y) :
    ∀ t ∈ (Declaration.cls y).heldTypes, t.IsConsistent := by
  have hmade := made_of_expand h
  have hrecord : ∀ t ∈ recordedBindings y.provenance, t.IsConsistent := by
    rw [hmade.provenance]
    exact consistent_provenanceOf hb
  refine List.forall_mem_append.2 ⟨?_, List.forall_mem_append.2 ⟨hrecord, ?_⟩⟩
  · exact TypeUse.consistent_of_becomes (types_of_instantiate h)
      (hc.consistent_uses hpath hname hb)
  · intro t ht
    obtain ⟨m, hm, ht⟩ := List.mem_flatMap.1 ht
    exact hmade.consistent_members hc hb m hm t ht

end ClassDecl

/-! ## Free declarations -/

section Free

variable {path : List String} {bindings : List TypeExpr} {newName : Option String}

theorem FunctionDecl.consistent_instance {d y : FunctionDecl}
    (hd : (Declaration.function d).WellFormed path) (hr : Requested d.template bindings newName)
    (h : d.instantiate bindings newName = .ok y) :
    ∀ t ∈ (Declaration.function y).heldTypes, t.IsConsistent := by
  cases hd with
  | function _ hresult hargs ht =>
    have hb := hr.consistent ht
    have htypes := types_of_instantiate h
    obtain ⟨-, result, args, -, -, rfl⟩ := eq_of_instantiate h
    refine List.forall_mem_append.2 ⟨?_, consistent_provenanceOf hb⟩
    refine TypeUse.consistent_of_becomes htypes (consistent_headerUses _ hb ?_)
    exact consistent_of_wellFormed
      (List.forall_mem_append.2 ⟨hresult.types, argumentTypes_wellFormed hargs⟩)

theorem VariableDecl.consistent_instance {d y : VariableDecl}
    (hd : (Declaration.var d).WellFormed path) (hr : Requested d.template bindings newName)
    (h : d.instantiate bindings newName = .ok y) :
    ∀ t ∈ (Declaration.var y).heldTypes, t.IsConsistent := by
  cases hd with
  | var htype _ _ ht =>
    have hb := hr.consistent ht
    have htypes := types_of_instantiate h
    obtain ⟨-, type, -, rfl⟩ := eq_of_instantiate h
    have hown : ∀ t ∈ [type], t.IsConsistent := by
      refine TypeUse.consistent_of_becomes htypes (consistent_headerUses _ hb ?_)
      exact List.forall_mem_singleton.2 htype.isConsistent
    refine List.forall_mem_append.2 ⟨hown, List.forall_mem_append.2 ⟨?_, by simp⟩⟩
    exact consistent_provenanceOf hb

/-- A forward declaration that is not expanded has only types that are written in it. -/
theorem ForwardDecl.consistent_plain {d : ForwardDecl}
    (hd : (Declaration.forward d).WellFormed path) :
    ∀ t ∈ (Declaration.forward d).heldTypes, t.IsConsistent := by
  cases hd with
  | forward hn hp _ =>
    refine List.forall_mem_append.2 ⟨?_, List.forall_mem_append.2 ⟨?_, nofun⟩⟩
    · exact fun t ht => (hp t (Option.mem_toList.1 ht)).isConsistent
    · exact fun t ht => ((hn false none).args t ht).isConsistent

theorem ForwardDecl.consistent_instance {d y : ForwardDecl}
    (hd : (Declaration.forward d).WellFormed path) (hr : Requested d.template bindings newName)
    (h : d.instantiate bindings newName = .ok y) :
    ∀ t ∈ (Declaration.forward y).heldTypes, t.IsConsistent := by
  obtain ⟨hparent, hrest⟩ := List.forall_mem_append.1 (consistent_plain hd)
  obtain ⟨hargs, -⟩ := List.forall_mem_append.1 hrest
  have ht : ∀ t ∈ d.template, t.WellFormed := by
    cases hd with
    | forward _ _ ht => exact ht
  have hb := hr.consistent ht
  have huses : ∀ u ∈ Target.uses bindings (.forward d), u.IsConsistent := by
    rw [Target.uses]
    split
    · exact consistent_headerUses _ hb hparent
    · intro u hu
      obtain ⟨t, ht, rfl⟩ := List.mem_map.1 hu
      exact hparent t ht
  have htypes := types_of_instantiate h
  obtain ⟨parent, -, h⟩ := except_bind_ok h
  cases h
  refine List.forall_mem_append.2 ⟨?_, List.forall_mem_append.2 ⟨hargs, ?_⟩⟩
  · exact TypeUse.consistent_of_becomes htypes huses
  · dsimp only
    split
    · exact hb
    · exact nofun

end Free

/-! ## Expanded files -/

/-- What is issued by a declaration that can be written is consistent, provided that a class is not
named like a built-in type. -/
theorem Declaration.Issues.consistent {path : List String} {g x : Declaration} (h : g.Issues x)
    (hg : g.WellFormed path) (hpath : "" ∉ path)
    (hname : ∀ c, g = .cls c → c.name ∉ basicTypeNames) :
    ∀ t ∈ x.heldTypes, t.IsConsistent := by
  cases h with
  | inclusion => exact nofun
  | enumeration => exact nofun
  | space => exact nofun
  | cls hr h =>
    cases hg with
    | cls hc => exact hc.consistent_instance hpath (hname _ rfl) (hr.consistent hc.template) h
  | function hr h => exact FunctionDecl.consistent_instance hg hr h
  | var hr h => exact VariableDecl.consistent_instance hg hr h
  | plainForward => exact ForwardDecl.consistent_plain hg
  | forward hr h => exact ForwardDecl.consistent_instance hg hr h

namespace Interface

/-- In the expansion of a file without classes that are named like a built-in type, there are no
headers, and all types are consistent, wherever they stand. -/
theorem consistent_of_instantiate {source : String} {m out : Interface} {policy : CollisionPolicy}
    (h : parse source = .ok m)
    (hnames : ∀ path c, m.content.Has path (.cls c) → c.name ∉ basicTypeNames)
    (hout : m.instantiate policy = .ok out) {path : List String} {x : Declaration}
    (hx : out.content.Has path x) : x.HeaderFree ∧ ∀ t ∈ x.heldTypes, t.IsConsistent := by
  obtain ⟨place, g, hg, hwf, hissues⟩ := exists_issues h hout hx
  refine ⟨hissues.made.headerFree hwf.scoped, ?_⟩
  refine hissues.consistent hwf (hg.names (wellFormed_of_parse h)) ?_
  rintro c rfl
  exact hnames place c hg

/-- **Flags stay truthful.** If the types that are bound are consistent, and the class has a proper
name with consistent arguments, then what is substituted in a consistent type is consistent. And
whatever the policy, in the expansion of a file that is read and has no class named like a built-in
type, all types of all declarations at all depths are consistent: those in signatures and those in
records, and there are no headers with others. -/
theorem consistent_subst?_and_heldTypes :
    (∀ (σ : Substitution) (t t' : TypeExpr), σ.IsConsistent → t.IsConsistent →
      σ.subst? t = some t' → t'.IsConsistent) ∧
    ∀ (source : String) (m out : Interface) (policy : CollisionPolicy), parse source = .ok m →
      (∀ path c, m.content.Has path (.cls c) → c.name ∉ basicTypeNames) →
      m.instantiate policy = .ok out →
      ∀ path x, out.content.Has path x →
        x.HeaderFree ∧ ∀ t ∈ x.heldTypes, t.IsConsistent := by
  constructor
  · intro σ t t' hσ ht h
    exact Substitution.consistent_of_subst? hσ ht h
  · intro source m out policy h hnames hout path x hx
    exact consistent_of_instantiate h hnames hout hx

/-- A class that is expanded for a built-in type, which it uses alone and in a path. -/
def plots : String :=
  "namespace plots \x7b template<T = \x7bchar\x7d> class Plot : Base<T> \x7b "
    ++ "T::Cell at(This::Row row, const T& step) const; \x7d; \x7d"

/-- Of the types in the instance only the one that is the built-in type itself has the flag, and all
of them are consistent, as are those that are substituted in the map. -/
theorem plots_consistent :
    (∃ t', (Substitution.boxed.withThis ⟨["ns"], "Fun", [.named "double"]⟩).subst?
        Substitution.keyed = some t' ∧ t'.IsConsistent) ∧
    ∃ (m out : Interface) (y : ClassDecl), parse plots = .ok m ∧
      m.instantiate .error = .ok out ∧ out.content.Has ["plots"] (.cls y) ∧
      y.types.map (fun t => (t.text, t.isBasic)) =
        [("Base<char>", false), ("char::Cell", false), ("plots::Plot<char>::Row", false),
          ("const char&", true)] ∧
      ∀ t ∈ (Declaration.cls y).heldTypes, t.IsConsistent := by
  constructor
  · obtain ⟨t', ht'⟩ := Substitution.exists_subst?
      (σ := Substitution.boxed.withThis ⟨["ns"], "Fun", [.named "double"]⟩) rfl Substitution.keyed
    exact ⟨t', ht',
      consistent_subst?_and_heldTypes.1 _ _ t' (by decide +kernel) (by decide +kernel) ht'⟩
  · have hrun : ((parse plots).toOption.any fun m => (m.instantiate .error).toOption.any fun out =>
        out.content.spaces.any fun inner => inner.2.classes.any fun y =>
          decide (inner.1 = "plots" ∧ (∀ d ∈ contentNested m.content, d.name ∉ basicTypeNames) ∧
            y.types.map (fun t => (t.text, t.isBasic)) =
              [("Base<char>", false), ("char::Cell", false), ("plots::Plot<char>::Row", false),
                ("const char&", true)])) = true := by
      decide +kernel
    simp only [Option.any_eq_true, List.any_eq_true, decide_eq_true_eq] at hrun
    obtain ⟨m, hm, out, hout, ⟨_, inner⟩, hinner, y, hy, rfl, hnames, htypes⟩ := hrun
    have hparse := except_ok_of_toOption hm
    have hexpanded := except_ok_of_toOption hout
    obtain ⟨span, hmem⟩ := Content.exists_mem_of_mem_spaces hinner
    have hclass : out.content.Has ["plots"] (.cls y) :=
      .inside hmem (.here (Content.mem_of_mem_classes hy))
    refine ⟨m, out, y, hparse, hexpanded, hclass, htypes, ?_⟩
    have hproper : ∀ path c, m.content.Has path (.cls c) → c.name ∉ basicTypeNames :=
      fun path c hc => hnames _ (mem_contentNested.2 ⟨path, hc⟩)
    exact (consistent_subst?_and_heldTypes.2 _ m out .error hparse hproper hexpanded _ _ hclass).2

end Interface

end TemplateIdl
