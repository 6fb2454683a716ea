import TemplateIdl.Proofs.Decl.Scopes
import TemplateIdl.Proofs.Expand.Parameters
import TemplateIdl.Proofs.Expand.Types

/-!
# Concrete files — nothing to expand

Where there is no template, no typedef and no `This`, each declaration is still taken apart and put
together again: types are substituted, constructors are renamed, owners are computed anew.

* `Substitution.subst?_eq_self`, without parameters all type uses stay that do not stand for the
  enclosing class;
* `expandMembers_eq_pure` and `ClassDecl.expand_eq_pure`, the instance of a concrete class is the
  class;
* `Expansion.Returns`, an expansion that leaves something as it is;
* `Declaration.Stays` and `returns_of_stays`, so does the expansion of declarations of which each one
  is its own instance;
* `Interface.instantiate_of_isConcrete`, so every policy leaves a concrete file as it is.
-/

namespace TemplateIdl

/-! ## Type uses -/

namespace Substitution

variable {σ : Substitution}

/-- Without parameters, a type use stays as it is unless it stands for the enclosing class. -/
theorem subst?_eq_self (hσ : σ.params = []) {inArgs : Bool} {t : TypeExpr}
    (ht : t.WellFormed inArgs) (h : ∀ u ∈ t.parts, ¬ u.IsPlaceholder) : σ.subst? t = some t := by
  have hnames : σ.names = [] := by rw [names, hσ, List.map_nil]
  revert h
  refine ht.induct_mk (motive := fun t => (∀ u ∈ t.parts, ¬ u.IsPlaceholder) →
    σ.subst? t = some t) ?_
  intro ns name args c i b hns _ _ ih h
  have hargs : List.Forall₂ (fun a a' => σ.subst? a = some a') args args := by
    rw [List.forall₂_same]
    intro a ha
    apply ih a ha
    intro u hu
    exact h u (TypeExpr.mem_parts.2 (.inr ⟨a, ha, hu⟩))
  have hscoped : σ.scoped? ns = none := scoped?_eq_none.2 (by simp [hnames])
  have hget : σ.get? name = none := get?_eq_none.2 (by simp [hnames])
  obtain ⟨hname, hpath⟩ := not_or.1 (h _ (TypeExpr.self_mem_parts (.mk ns name args c i b)))
  have hreplace := replace?_of_plain hscoped (fun _ _ => hget) hname hpath args
  have hsame : TypeExpr.rename (.mk ns name args c i b) (.ofPath ns name args) b =
      .mk ns name args c i b := by
    rw [Typename.ofPath_eq hns]
    rfl
  rw [subst?_eq_some]
  refine ⟨args, hargs, ?_⟩
  rw [hreplace]
  exact congrArg some hsame

/-- Without a header, nothing is bound. -/
theorem bind_nil {template : Option Template} (h : template = none) (name : String)
    (span : Span) : bind name (paramNames template) [] span = .ok empty := by
  rw [h]
  rfl

/-! ## Signatures -/

theorem substArguments?_eq_self {args : List Argument}
    (h : ∀ t ∈ argumentTypes args, σ.subst? t = some t) : σ.substArguments? args = some args := by
  induction args with
  | nil => rfl
  | cons a args ih =>
    rw [argumentTypes, List.map_cons, List.forall_mem_cons] at h
    simp [substArguments?, h.1, ih h.2]

theorem substReturn?_eq_self {r : ReturnType} (h : ∀ t ∈ r.types, σ.subst? t = some t) :
    σ.substReturn? r = some r := by
  cases r with
  | single t =>
    have ht := h t (by simp [ReturnType.types])
    simp [substReturn?, ht]
  | pair s t =>
    have hs := h s (by simp [ReturnType.types])
    have ht := h t (by simp [ReturnType.types])
    simp [substReturn?, hs, ht]

theorem substOption?_eq_self {o : Option TypeExpr} (h : ∀ t ∈ o.toList, σ.subst? t = some t) :
    σ.substOption? o = some o := by
  cases o with
  | none => rfl
  | some t => simp [substOption?, h t (by simp)]

end Substitution

/-! ## Expansions without a trace -/

namespace Expansion

variable {α β : Type}

/-- A step without names that succeeds can be left out. -/
theorem pure_bind (a : α) (f : α → Expansion β) : (pure a >>= f) = f a := rfl

theorem forEach_eq_pure {f : α → Expansion β} {g : α → β} {as : List α}
    (h : ∀ a ∈ as, f a = pure (g a)) : forEach f as = pure (as.map g) := by
  induction as with
  | nil => rfl
  | cons a as ih =>
    rw [List.forall_mem_cons] at h
    rw [forEach, h.1, ih h.2, pure_bind, pure_bind, List.map_cons]

end Expansion

/-! ## Names -/

theorem generatedName_nil (name : String) : generatedName name [] = name := by
  simp [generatedName]

theorem describe_nil (name : String) : describe name [] = name := by
  simp [describe, angled]

/-! ## Members -/

section Members

variable {μ : Type} [TemplatedMember μ] {x : ClassContext}

/-- Members without a header that are put together as they were. -/
theorem expandMembers_eq_pure {base : μ → String} {ds : List μ}
    (h : ∀ d ∈ ds, TemplatedMember.template d = none ∧
      TemplatedMember.concrete? x.substitution x.owner (base d) none d = some d) :
    expandMembers x base ds = pure ds := by
  have hstep : ∀ d ∈ ds, expandMember x base d = pure [d] := by
    intro d hd
    obtain ⟨htemplate, hconcrete⟩ := h d hd
    unfold expandMember concreteMember
    rw [htemplate, hconcrete]
    rfl
  rw [expandMembers, Expansion.forEach_eq_pure hstep, Expansion.pure_bind, ← List.flatMap_def,
    List.flatMap_singleton']

end Members

/-- Members that have no header as others and are put together as they were. -/
theorem forEach_plain_eq_pure {μ : Type} {name : μ → String} {span : μ → Span}
    {concrete? : μ → Option μ} {ds : List μ} (h : ∀ d ∈ ds, concrete? d = some d) :
    Expansion.forEach (fun d => .lift (resolved (name d) (span d) (concrete? d))) ds = pure ds := by
  have hstep : ∀ d ∈ ds,
      Expansion.lift (resolved (name d) (span d) (concrete? d)) = pure (id d) := by
    intro d hd
    rw [h d hd]
    rfl
  rw [Expansion.forEach_eq_pure hstep, List.map_id]

/-- Put together in a class that `x` describes, the member is the same again. -/
def Member.Stays (x : ClassContext) : Member → Prop
  | .ctor d => TemplatedMember.concrete? x.substitution x.owner d.name none d = some d
  | .method d => TemplatedMember.concrete? x.substitution x.owner d.name none d = some d
  | .static d => TemplatedMember.concrete? x.substitution x.owner d.name none d = some d
  | .special d => d.concrete? x = some d
  | .operator d => d.concrete? x = some d
  | .property d => d.concrete? x = some d
  | .enumeration _ => True

/-- Each kind of members is put together in its own way, but in all of them only the types and
the owner are computed, and a header and a provenance that were not there. -/
theorem Member.Scoped.stays {c : ClassDecl} {x : ClassContext} {m : Member} (hm : m.Scoped c)
    (hx : x.owner = c.selfType) (htemplate : m.template = none)
    (htypes : ∀ t ∈ m.types, x.substitution.subst? t = some t) : m.Stays x := by
  cases m with
  | ctor d =>
    obtain ⟨name, args, owner, template, span, provenance⟩ := d
    obtain ⟨-, rfl, rfl⟩ := hm
    cases htemplate
    have hargs := Substitution.substArguments?_eq_self htypes
    simp [Stays, TemplatedMember.concrete?, hargs, hx]
  | method d =>
    obtain ⟨name, result, args, isConst, owner, template, span, provenance⟩ := d
    obtain ⟨rfl, rfl⟩ := hm
    cases htemplate
    obtain ⟨hresult, hargs⟩ := List.forall_mem_append.1 htypes
    have hr := Substitution.substReturn?_eq_self hresult
    have ha := Substitution.substArguments?_eq_self hargs
    simp [Stays, TemplatedMember.concrete?, hr, ha, hx]
  | static d =>
    obtain ⟨name, result, args, owner, template, span, provenance⟩ := d
    obtain ⟨rfl, rfl⟩ := hm
    cases htemplate
    obtain ⟨hresult, hargs⟩ := List.forall_mem_append.1 htypes
    have hr := Substitution.substReturn?_eq_self hresult
    have ha := Substitution.substArguments?_eq_self hargs
    simp [Stays, TemplatedMember.concrete?, hr, ha, hx]
  | special d =>
    have howner : d.owner = c.selfType := hm
    have hargs := Substitution.substArguments?_eq_self htypes
    simp [Stays, SpecialMethod.concrete?, hargs, hx, ← howner]
  | operator d =>
    have howner : d.owner = c.selfType := hm
    obtain ⟨hresult, hargs⟩ := List.forall_mem_append.1 htypes
    have hr := Substitution.substReturn?_eq_self hresult
    have ha := Substitution.substArguments?_eq_self hargs
    simp [Stays, OperatorMethod.concrete?, hr, ha, hx, ← howner]
  | property d =>
    obtain ⟨type, name, default?, template, namespaces, owner, span, provenance⟩ := d
    obtain ⟨howner, -, -, -⟩ := hm
    cases howner
    have htype := htypes type (by simp [types])
    simp [Stays, VariableDecl.concrete?, htype, hx]
  | enumeration d => trivial

/-! ## Classes -/

namespace ClassDecl

/-- A class without headers whose types stay is put together as it was. -/
theorem expand_eq_pure {path : List String} {c : ClassDecl} (hc : c.Scoped path)
    (htemplate : c.template = none) (hmembers : ∀ m ∈ c.members, m.template = none)
    (htypes : ∀ t ∈ c.types, Substitution.subst? ⟨[], some c.selfType⟩ t = some t)
    (span : Span) : c.expand span [] none = pure c := by
  have hbind := Substitution.bind_nil htemplate c.name span
  have hname : instanceName c.name [] none = c.name := generatedName_nil c.name
  generalize hx : c.context .empty [] c.name = x
  have howner : x.owner = c.selfType := by
    rw [← hx, selfType, hc.provenance, htemplate, cppType, hc.provenance]
    rfl
  have hsubst : ∀ t ∈ c.types, x.substitution.subst? t = some t := by
    rw [← howner, ← hx] at htypes
    rw [← hx]
    exact htypes
  have hparent : x.substitution.substOption? c.parent = some c.parent := by
    apply Substitution.substOption?_eq_self
    intro t ht
    exact hsubst t (List.mem_append_left _ ht)
  have hstays : ∀ m ∈ c.members, m.Stays x := by
    intro m hm
    apply (hc.members m hm).stays howner (hmembers m hm)
    intro t ht
    exact hsubst t (List.mem_append_right _ (List.mem_flatMap.2 ⟨m, hm, ht⟩))
  have hscoped := hc.members
  simp only [members, List.forall_mem_append, List.forall_mem_map] at hstays hmembers hscoped
  obtain ⟨⟨⟨⟨⟨⟨hctors, hmethods⟩, hstatics⟩, hspecials⟩, hoperators⟩, hproperties⟩, -⟩ := hstays
  obtain ⟨⟨⟨⟨⟨⟨hctor, hmethod⟩, hstatic⟩, -⟩, -⟩, -⟩, -⟩ := hmembers
  have hctorNames : ∀ d ∈ c.ctors, d.name = c.name := fun d hd => (hscoped.1.1.1.1.1.1 d hd).1
  have h₁ : expandMembers x (fun _ => c.name) c.ctors = pure c.ctors := by
    apply expandMembers_eq_pure
    intro d hd
    rw [← hctorNames d hd]
    exact ⟨hctor d hd, hctors d hd⟩
  have h₂ : expandMembers x Method.name c.methods = pure c.methods :=
    expandMembers_eq_pure fun d hd => ⟨hmethod d hd, hmethods d hd⟩
  have h₃ : expandMembers x StaticMethod.name c.statics = pure c.statics :=
    expandMembers_eq_pure fun d hd => ⟨hstatic d hd, hstatics d hd⟩
  unfold expand
  rw [hbind]
  show (pure Substitution.empty >>= _) = _
  rw [Expansion.pure_bind]
  dsimp only
  rw [hname, hx, hparent]
  show (pure c.parent >>= _) = _
  rw [Expansion.pure_bind, h₁, Expansion.pure_bind, h₂, Expansion.pure_bind, h₃,
    Expansion.pure_bind, forEach_plain_eq_pure hoperators, Expansion.pure_bind,
    forEach_plain_eq_pure hproperties, Expansion.pure_bind, forEach_plain_eq_pure hspecials,
    Expansion.pure_bind]
  -- what is left was taken from the class as it is
  obtain ⟨name, template, isVirtual, parent, ctors, methods, statics, specials, operators,
    properties, enums, namespaces, span', provenance⟩ := c
  cases htemplate
  cases hc.provenance
  rfl

end ClassDecl

/-! ## Free declarations -/

theorem except_ok_bind {ε α β : Type} (a : α) (f : α → Except ε β) : (Except.ok a >>= f) = f a :=
  rfl

theorem FunctionDecl.instantiate_eq_self {d : FunctionDecl} (htemplate : d.template = none)
    (hprovenance : d.provenance = none)
    (htypes : ∀ t ∈ d.result.types ++ argumentTypes d.args, Substitution.empty.subst? t = some t) :
    d.instantiate [] none = .ok d := by
  obtain ⟨hresult, hargs⟩ := List.forall_mem_append.1 htypes
  have hr := Substitution.substReturn?_eq_self hresult
  have ha := Substitution.substArguments?_eq_self hargs
  rw [instantiate, instantiateAt, Substitution.bind_nil htemplate]
  simp only [except_ok_bind, hr, ha, resolved, instanceName, Option.getD_none, generatedName_nil,
    provenanceOf, htemplate, Option.map_none]
  rw [← hprovenance]
  obtain ⟨name, result, args, template, namespaces, span, provenance⟩ := d
  cases htemplate
  rfl

theorem VariableDecl.instantiate_eq_self {d : VariableDecl} (htemplate : d.template = none)
    (hprovenance : d.provenance = none) (htype : Substitution.empty.subst? d.type = some d.type) :
    d.instantiate [] none = .ok d := by
  rw [instantiate, Substitution.bind_nil htemplate]
  simp only [except_ok_bind, htype, resolved, instanceName, Option.getD_none, generatedName_nil,
    provenanceOf, htemplate, Option.map_none]
  rw [← hprovenance, ← htemplate]
  rfl

/-! ## Whole files -/

/-- The expansion leaves `a` as it is, and what it registers on the way is described by its own
name. -/
structure Expansion.Returns {α : Type} (x : Expansion α) (a : α) : Prop where
  outcome : x.outcome = .ok a
  log : ∀ r ∈ x.log, r.description = r.name

namespace Expansion.Returns

variable {α β : Type} {x : Expansion α} {f : α → Expansion β} {a : α} {b : β}

theorem pure (a : α) : Returns (Pure.pure a) a := ⟨rfl, by simp⟩

theorem bind (hx : Returns x a) (hf : Returns (f a) b) : Returns (x >>= f) b := by
  constructor
  · rw [outcome_bind_of_ok hx.outcome]
    exact hf.outcome
  · rw [log_bind_of_ok hx.outcome]
    exact List.forall_mem_append.2 ⟨hx.log, hf.log⟩

/-- Names that describe themselves do not collide. -/
theorem settle (h : Returns x a) (policy : CollisionPolicy) : x.settle policy = .ok a := by
  rw [settle_eq_ok_iff]
  refine ⟨h.outcome, .inr ?_⟩
  intro r hr r' hr' _ hname
  rw [h.log r hr, h.log r' hr', hname]

end Expansion.Returns

/-- Without a header, a declaration stands for itself alone. -/
theorem returns_expandListed {scope : List String} {d : Declaration} {template : Option Template}
    {make : List TypeExpr → Expansion Declaration} (htemplate : template = none)
    (h : (make []).Returns d) : (expandListed scope d template make).Returns [d] := by
  have hregister : (Expansion.register ⟨scope, d.name, describe d.name [], d.span⟩).Returns () := by
    constructor
    · rfl
    · intro r hr
      rw [List.mem_singleton.1 hr]
      exact describe_nil d.name
  rw [expandListed, htemplate]
  exact (h.bind (hregister.bind (.pure d))).bind (.pure [d])

mutual

/-- Nothing is left to expand: the declaration is no typedef and has no header, and neither has
anything in it. -/
def Declaration.isConcrete : Declaration → Bool
  | .space _ content _ => contentIsConcrete content
  | .cls d => d.template.isNone && d.members.all fun m => m.template.isNone
  | .forward d => d.template.isNone
  | .var d => d.template.isNone
  | .function d => d.template.isNone
  | .typedef _ => false
  | .inclusion _ | .enumeration _ => true

/-- Nothing is left to expand in several declarations. -/
def contentIsConcrete : List Declaration → Bool
  | [] => true
  | d :: ds => d.isConcrete && contentIsConcrete ds

end

/-- Without bindings, the instance of the declaration is the declaration. -/
def Declaration.Stays : Declaration → Prop
  | .cls d => d.template = none ∧ d.expand d.span [] none = pure d
  | .function d => d.template = none ∧ d.instantiate [] none = .ok d
  | .var d => d.template = none ∧ d.instantiate [] none = .ok d
  | .forward d => d.template = none
  | .typedef _ => False
  | .inclusion _ | .space _ _ _ | .enumeration _ => True

mutual

theorem returns_declaration_of_stays (index : TypedefIndex) (scope : List String)
    (d : Declaration) (h : ∀ path e, Content.Has [d] path e → e.Stays) :
    (expandDeclaration index scope d).Returns [d] := by
  have hself := h [] d (.here (List.mem_singleton_self d))
  cases d with
  | inclusion d => exact .pure _
  | enumeration d => exact .pure _
  | typedef d => exact hself.elim
  | space name content span =>
    have hinner := returns_of_stays index (scope ++ [name]) content
      fun path e he => h _ e (.inside List.mem_cons_self he)
    exact hinner.bind (.pure _)
  | cls d =>
    apply returns_expandListed hself.1
    rw [hself.2]
    exact .pure (Declaration.cls d)
  | forward d =>
    have htemplate : d.template = none := hself
    rw [expandDeclaration, htemplate]
    exact .pure _
  | var d =>
    apply returns_expandListed hself.1
    rw [hself.2]
    exact .pure (Declaration.var d)
  | function d =>
    apply returns_expandListed hself.1
    rw [hself.2]
    exact .pure (Declaration.function d)

/-- Declarations that are their own instances are left as they are. -/
theorem returns_of_stays (index : TypedefIndex) (scope : List String) (ds : Content)
    (h : ∀ path e, ds.Has path e → e.Stays) : (expandContent index scope ds).Returns ds := by
  cases ds with
  | nil => exact .pure []
  | cons d ds =>
    have hhere := returns_declaration_of_stays index scope d
      fun path e he => h path e (he.mono (by simp))
    have hrest := returns_of_stays index scope ds
      fun path e he => h path e (he.mono (List.subset_cons_self d ds))
    exact hhere.bind (hrest.bind (.pure (d :: ds)))

end

/-- A concrete declaration that can be written is its own instance. -/
theorem Declaration.WellFormed.stays {scope : List String} {d : Declaration}
    (hd : d.WellFormed scope) (hconcrete : d.isConcrete = true)
    (htypes : ∀ t ∈ d.types, ∀ u ∈ t.parts, ¬ u.IsPlaceholder) : d.Stays := by
  cases d with
  | inclusion d => trivial
  | enumeration d => trivial
  | typedef d => cases hconcrete
  | space name content span => trivial
  | cls d =>
    cases hd with
    | cls hd =>
      have hheaders : d.template.isNone = true ∧ ∀ m ∈ d.members, m.template.isNone = true := by
        simpa [isConcrete] using hconcrete
      have htemplate := Option.isNone_iff_eq_none.1 hheaders.1
      have hmembers : ∀ m ∈ d.members, m.template = none :=
        fun m hm => Option.isNone_iff_eq_none.1 (hheaders.2 m hm)
      refine ⟨htemplate, ClassDecl.expand_eq_pure hd.scoped htemplate hmembers ?_ d.span⟩
      intro t ht
      obtain ⟨inArgs, hwf⟩ := hd.types t ht
      exact Substitution.subst?_eq_self rfl hwf (htypes t ht)
  | forward d => exact Option.isNone_iff_eq_none.1 hconcrete
  | var d =>
    have htemplate : d.template = none := Option.isNone_iff_eq_none.1 hconcrete
    have hscoped := hd.scoped
    have htype : Substitution.empty.subst? d.type = some d.type := by
      cases hd with
      | var hwf => exact Substitution.subst?_eq_self rfl hwf (htypes _ List.mem_cons_self)
    exact ⟨htemplate, VariableDecl.instantiate_eq_self htemplate hscoped.2.2 htype⟩
  | function d =>
    have htemplate : d.template = none := Option.isNone_iff_eq_none.1 hconcrete
    have hscoped := hd.scoped
    have hsubst : ∀ t ∈ d.result.types ++ argumentTypes d.args,
        Substitution.empty.subst? t = some t := by
      intro t ht
      obtain ⟨inArgs, hwf⟩ : ∃ inArgs, t.WellFormed inArgs := by
        cases hd with
        | function _ hr ha _ =>
          exact List.forall_mem_append.2 ⟨hr.types, argumentTypes_wellFormed ha⟩ t ht
      exact Substitution.subst?_eq_self rfl hwf (htypes t ht)
    exact ⟨htemplate, FunctionDecl.instantiate_eq_self htemplate hscoped.2 hsubst⟩

/-- What stands in concrete declarations is concrete, and its types are among theirs. -/
theorem Content.Has.concrete {ds : Content} {path : List String} {d : Declaration}
    (h : ds.Has path d) (hconcrete : contentIsConcrete ds = true) :
    d.isConcrete = true ∧ ∀ t ∈ d.types, t ∈ contentTypes ds := by
  have hmem : ∀ {ds : Content} {d : Declaration}, d ∈ ds → contentIsConcrete ds = true →
      d.isConcrete = true ∧ ∀ t ∈ d.types, t ∈ contentTypes ds := by
    intro ds d hd hconcrete
    induction ds with
    | nil => cases hd
    | cons e ds ih =>
      rw [contentIsConcrete, Bool.and_eq_true] at hconcrete
      rw [contentTypes]
      rcases List.mem_cons.1 hd with rfl | hd
      · exact ⟨hconcrete.1, fun t ht => List.mem_append_left _ ht⟩
      · obtain ⟨hc, ht⟩ := ih hd hconcrete.2
        exact ⟨hc, fun t h => List.mem_append_right _ (ht t h)⟩
  induction h with
  | here hd => exact hmem hd hconcrete
  | inside hs _ ih =>
    obtain ⟨hspace, htypes⟩ := hmem hs hconcrete
    obtain ⟨hc, hd⟩ := ih hspace
    exact ⟨hc, fun t ht => htypes t (hd t ht)⟩

/-- Concrete declarations that can be written stand for themselves. -/
theorem returns_expandContent (index : TypedefIndex) {scope : List String} (ds : Content)
    (hds : ∀ d ∈ ds, d.WellFormed scope) (hconcrete : contentIsConcrete ds = true)
    (htypes : ∀ t ∈ contentTypes ds, ∀ u ∈ t.parts, ¬ u.IsPlaceholder) :
    (expandContent index scope ds).Returns ds := by
  apply returns_of_stays
  intro path d hd
  obtain ⟨hc, ht⟩ := hd.concrete hconcrete
  exact (hd.wellFormed hds).stays hc fun t h => htypes t (ht t h)

namespace Interface

/-- A file that is read and in which there is no typedef, no header and no `This` for an enclosing
class comes out of the expansion as it is, under every policy. -/
theorem instantiate_of_isConcrete {source : String} {m : Interface} (hm : parse source = .ok m)
    (hconcrete : contentIsConcrete m.content = true)
    (htypes : ∀ t ∈ m.types, ∀ u ∈ t.parts, ¬ u.IsPlaceholder) (policy : CollisionPolicy) :
    m.instantiate policy = .ok m := by
  have hcontent := returns_expandContent (.ofContent m.content) m.content (wellFormed_of_parse hm)
    hconcrete htypes
  rw [instantiate, hcontent.settle policy]
  rfl

/-- A class with several kinds of members in a namespace, and a variable behind it. -/
def plainFile : String :=
  "namespace shop \x7b class Crate : Box<int> \x7b Crate(int n); int size() const; __len__(); int k; \x7d;"
    ++ " \x7d double rate;"

/-- It comes out as it is even under the strict policy. -/
theorem instantiate_plainFile : ∃ m : Interface, parse plainFile = .ok m ∧
    m.content.length = 2 ∧ m.instantiate .error = .ok m := by
  have hrun : ((parse plainFile).toOption.any fun m => m.content.length == 2 &&
      contentIsConcrete m.content &&
      decide (∀ t ∈ m.types, ∀ u ∈ t.parts, ¬ u.IsPlaceholder)) = true := by
    decide +kernel
  obtain ⟨m, hm, hchecks⟩ := (Option.any_eq_true _ _).1 hrun
  simp only [Bool.and_eq_true, beq_iff_eq, decide_eq_true_eq] at hchecks
  obtain ⟨⟨hlength, hconcrete⟩, htypes⟩ := hchecks
  have hparse := except_ok_of_toOption hm
  exact ⟨m, hparse, hlength, instantiate_of_isConcrete hparse hconcrete htypes .error⟩

end Interface

end TemplateIdl
