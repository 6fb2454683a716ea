import TemplateIdl.Proofs.Expand.Concrete
import TemplateIdl.Proofs.Expand.Uses

/-!
# Held — the names in an expanded file and the names that were registered

An expansion registers a name for each instance. The names can also be read off the declarations
that it gives: each of them knows what it was made from.

* `NameScope` and `NamedItem`, a namespace or a class, and what can stand in it with a name;
* `contentHeld`, all that some declarations hold, each in its scope;
* `NameScope.key`, the path under which the names of a scope are registered, and
  `NamedItem.description?`, what is registered with the name of an item;
* `registers_expandContent`, an expansion has registered exactly the items with a description.
-/

namespace TemplateIdl

/-! ## What declarations hold -/

/-- Where names stand: in a namespace, where namespaces of one name are one namespace, or in one
class. -/
inductive NameScope where
  | space (path : List String)
  | cls (c : ClassDecl)
deriving DecidableEq

/-- What stands in a scope. -/
inductive NamedItem where
  | declaration (d : Declaration)
  | member (m : Member)
deriving DecidableEq

mutual

/-- All that a declaration of the namespace `path` holds, with itself: first the members of a
class, then the class. -/
def Declaration.held (path : List String) : Declaration → List (NameScope × NamedItem)
  | .space name content span =>
    contentHeld (path ++ [name]) content ++ [(.space path, .declaration (.space name content span))]
  | .cls c =>
    (c.members.map fun m => (.cls c, .member m)) ++ [(.space path, .declaration (.cls c))]
  | .inclusion d => [(.space path, .declaration (.inclusion d))]
  | .forward d => [(.space path, .declaration (.forward d))]
  | .enumeration d => [(.space path, .declaration (.enumeration d))]
  | .var d => [(.space path, .declaration (.var d))]
  | .function d => [(.space path, .declaration (.function d))]
  | .typedef d => [(.space path, .declaration (.typedef d))]

/-- All that several declarations hold. -/
def contentHeld (path : List String) : List Declaration → List (NameScope × NamedItem)
  | [] => []
  | d :: ds => d.held path ++ contentHeld path ds

end

/-! ## Names and descriptions -/

namespace Member

/-- The name of a member. -/
def name : Member → String
  | .ctor d => d.name
  | .method d => d.name
  | .static d => d.name
  | .special d => d.name
  | .operator d => d.name
  | .property d => d.name
  | .enumeration d => d.name

/-- What a member was made from, if it had a header of its own. -/
def provenance : Member → Option Provenance
  | .ctor d => d.provenance
  | .method d => d.provenance
  | .static d => d.provenance
  | .special _ | .operator _ | .property _ | .enumeration _ => none

end Member

/-- The generic declaration with the bindings. -/
def Provenance.description (p : Provenance) : String := describe p.genericName p.bindings

/-- The description of an instance; what was made from nothing else is described by its name. -/
def describedAs (name : String) (provenance : Option Provenance) : String :=
  (provenance.map Provenance.description).getD name

/-- The path under which the names in a scope are registered. A class takes part with the
namespaces of its template, which need not be those where it stands. -/
def NameScope.key : NameScope → List String
  | .space path => path
  | .cls c => c.namespaces ++ [c.name]

namespace NamedItem

/-- The name of an item. -/
def name : NamedItem → String
  | .declaration d => d.name
  | .member m => m.name

/-- The description that is registered with the name, for what is registered at all: classes,
functions and variables, and forward declarations and members that were made from a template. -/
def description? : NamedItem → Option String
  | .declaration (.cls d) => some (describedAs d.name d.provenance)
  | .declaration (.function d) => some (describedAs d.name d.provenance)
  | .declaration (.var d) => some (describedAs d.name d.provenance)
  | .declaration (.forward d) => d.provenance.map Provenance.description
  | .declaration _ => none
  | .member m => m.provenance.map Provenance.description

end NamedItem

/-- Key, name and description. -/
abbrev NameEntry := List String × String × String

/-- A registration without its place. -/
def Registration.entry (r : Registration) : NameEntry := (r.scope, r.name, r.description)

/-- What is registered for an item in a scope. -/
def record? (x : NameScope × NamedItem) : Option NameEntry :=
  x.2.description?.map fun description => (x.1.key, x.2.name, description)

/-- The description of an instance, unless something with no bindings is called by a new name. -/
theorem describedAs_provenanceOf {template : Option Template} {name : String}
    {bindings : List TypeExpr} {newName : Option String}
    (hlength : (paramNames template).length = bindings.length)
    (hnew : newName = none ∨ bindings ≠ []) :
    describedAs (instanceName name bindings newName) (provenanceOf template name bindings) =
      describe name bindings := by
  cases template with
  | some t => rfl
  | none =>
    -- without a header there are no bindings, so there is no new name either
    have hnil : bindings = [] := List.eq_nil_of_length_eq_zero hlength.symm
    have hnone : newName = none := hnew.resolve_right (absurd hnil)
    rw [hnil, hnone, describe_nil]
    exact generatedName_nil name

/-! ## Logs -/

namespace Expansion

variable {α β : Type}

/-- Without the places, the log is the one that `entries` tells from the result. -/
def Registers (x : Expansion α) (entries : α → List NameEntry) : Prop :=
  ∀ a, x.outcome = .ok a → x.log.map Registration.entry = entries a

theorem Registers.pure {entries : α → List NameEntry} {a : α} (h : entries a = []) :
    Registers (Pure.pure a) entries := by
  intro b hb
  rw [← outcome_pure_ok hb, h]
  rfl

theorem Registers.lift (x : Except ExpansionError α) :
    Registers (Expansion.lift x) fun _ => [] := by
  intro a _
  rfl

theorem Registers.register (r : Registration) :
    Registers (Expansion.register r) fun _ => [r.entry] := by
  intro a _
  rfl

/-- The entries of two expansions, of which the second one gives the result. -/
theorem Registers.bind {x : Expansion α} {f : α → Expansion β} {first : α → List NameEntry}
    {second : α → β → List NameEntry} {entries : β → List NameEntry} (hx : x.Registers first)
    (hf : ∀ a, x.outcome = .ok a → (f a).Registers (second a))
    (h : ∀ a b, x.outcome = .ok a → (f a).outcome = .ok b → first a ++ second a b = entries b) :
    (x >>= f).Registers entries := by
  intro b hb
  obtain ⟨a, ha, hb⟩ := outcome_bind_ok hb
  rw [log_bind_of_ok ha, List.map_append, hx a ha, hf a ha b hb, h a b ha hb]

/-- Another form of the result. -/
theorem Registers.wrap {x : Expansion α} {wrap : α → β} {entries : β → List NameEntry}
    (hx : x.Registers fun a => entries (wrap a)) :
    (x >>= fun a => Pure.pure (wrap a)).Registers entries := by
  intro b hb
  obtain ⟨a, ha, rfl⟩ := outcome_wrap_ok hb
  rw [log_bind_of_ok ha, log_pure, List.append_nil, hx a ha]

theorem Registers.forEach {f : α → Expansion β} {entries : β → List NameEntry} {as : List α}
    (h : ∀ a ∈ as, (f a).Registers entries) :
    (forEach f as).Registers fun bs => bs.flatMap entries := by
  induction as with
  | nil => exact .pure rfl
  | cons a as ih =>
    rw [List.forall_mem_cons] at h
    intro bs hbs
    obtain ⟨b, hb, hbs⟩ := outcome_bind_ok hbs
    obtain ⟨bs', hbs', rfl⟩ := outcome_wrap_ok hbs
    rw [Expansion.forEach, log_bind_of_ok hb, log_bind_of_ok hbs', log_pure, List.append_nil,
      List.map_append, h.1 b hb, ih h.2 bs' hbs']
    exact List.flatMap_cons.symm

end Expansion

/-! ## Members -/

/-- What is registered for a member of a class with the key given. -/
def memberRecord? (key : List String) (m : Member) : Option NameEntry :=
  m.provenance.map fun p => (key, m.name, p.description)

/-- A kind of members that are called and described as they are told to be. -/
class NamedMember (μ : Type) [TemplatedMember μ] [MemberKind μ] : Prop where
  of_concrete? {σ : Substitution} {owner : Typename} {name : String}
    {provenance : Option Provenance} {d d' : μ}
    (h : TemplatedMember.concrete? σ owner name provenance d = some d') :
    (MemberKind.member d').name = name ∧ (MemberKind.member d').provenance = provenance

instance : NamedMember Constructor where
  of_concrete? h := by
    simp only [TemplatedMember.concrete?, Option.bind_eq_bind, Option.bind_eq_some_iff,
      Option.some.injEq] at h
    obtain ⟨args, -, rfl⟩ := h
    exact ⟨rfl, rfl⟩

instance : NamedMember Method where
  of_concrete? h := by
    simp only [TemplatedMember.concrete?, Option.bind_eq_bind, Option.bind_eq_some_iff,
      Option.some.injEq] at h
    obtain ⟨result, -, args, -, rfl⟩ := h
    exact ⟨rfl, rfl⟩

instance : NamedMember StaticMethod where
  of_concrete? h := by
    simp only [TemplatedMember.concrete?, Option.bind_eq_bind, Option.bind_eq_some_iff,
      Option.some.injEq] at h
    obtain ⟨result, -, args, -, rfl⟩ := h
    exact ⟨rfl, rfl⟩

section Members

variable {μ : Type} [TemplatedMember μ] [MemberKind μ] [NamedMember μ] {x : ClassContext}

open MemberKind

theorem of_concreteMember {σ : Substitution} {name : String} {provenance : Option Provenance}
    {d d' : μ} (h : (concreteMember x σ name provenance d).outcome = .ok d') :
    (member d').name = name ∧ (member d').provenance = provenance :=
  NamedMember.of_concrete? (ok_of_resolved h)

/-- The instances of a member with a header are registered, and a member without one is not. -/
theorem registers_expandMember (base : μ → String) (d : μ) :
    (expandMember x base d).Registers fun ds =>
      ds.flatMap fun d' => (memberRecord? x.scope (member d')).toList := by
  unfold expandMember
  cases TemplatedMember.template d with
  | none =>
    refine Expansion.Registers.wrap ?_
    intro d' hd'
    have hplain := (of_concreteMember hd').2
    simp [memberRecord?, hplain, concreteMember, Expansion.lift]
  | some t =>
    apply Expansion.Registers.forEach
    intro bindings _
    refine (Expansion.Registers.register _).bind
      (fun _ _ => Expansion.Registers.lift _) ?_
    intro u d' _ hd'
    obtain ⟨hname, hprovenance⟩ := of_concreteMember hd'
    simp only [memberRecord?, hname, hprovenance]
    rfl

theorem registers_expandMembers (base : μ → String) (ds : List μ) :
    (expandMembers x base ds).Registers fun ds' =>
      (ds'.map member).filterMap (memberRecord? x.scope) := by
  refine Expansion.Registers.wrap ?_
  have hgroups : (Expansion.forEach (expandMember x base) ds).Registers fun groups =>
      groups.flatMap fun ds => ds.flatMap fun d => (memberRecord? x.scope (member d)).toList :=
    .forEach fun d _ => registers_expandMember base d
  intro groups hout
  rw [hgroups groups hout]
  show _ = (groups.flatten.map member).filterMap _
  rw [List.filterMap_map, List.filterMap_eq_flatMap_toList, List.flatten_eq_flatMap,
    List.flatMap_assoc]
  rfl

end Members

/-! ## Classes -/

/-- Members that have no header register nothing. -/
theorem registers_plainMembers {μ : Type} (f : μ → Except ExpansionError μ) (ds : List μ) :
    (Expansion.forEach (fun d => .lift (f d)) ds).Registers fun _ => [] := by
  have hnone : (Expansion.forEach (fun d => .lift (f d)) ds).Registers fun ds' =>
      ds'.flatMap fun _ => [] :=
    .forEach fun d _ => .lift (f d)
  intro ds' hds
  rw [hnone ds' hds]
  simp

theorem filterMap_memberRecord?_nil {μ : Type} {member : μ → Member}
    (h : ∀ d, (member d).provenance = none) (key : List String) (ds : List μ) :
    (ds.map member).filterMap (memberRecord? key) = [] := by
  rw [List.filterMap_map, List.filterMap_eq_nil_iff]
  intro d _
  rw [Function.comp_apply, memberRecord?, h d, Option.map_none]

/-- The members with a header of their own are registered for the class that they end up in. -/
theorem ClassDecl.registers_expand (span : Span) (c : ClassDecl) (bindings : List TypeExpr)
    (newName : Option String) : (c.expand span bindings newName).Registers fun y =>
      y.members.filterMap (memberRecord? (y.namespaces ++ [y.name])) := by
  intro y h
  unfold expand at h ⊢
  obtain ⟨σ, hσ, h⟩ := Expansion.outcome_bind_ok h
  rw [Expansion.log_bind_of_ok hσ]
  dsimp only at h ⊢
  obtain ⟨parent, hparent, h⟩ := Expansion.outcome_bind_ok h
  rw [Expansion.log_bind_of_ok hparent]
  obtain ⟨ctors, hctors, h⟩ := Expansion.outcome_bind_ok h
  rw [Expansion.log_bind_of_ok hctors]
  obtain ⟨methods, hmethods, h⟩ := Expansion.outcome_bind_ok h
  rw [Expansion.log_bind_of_ok hmethods]
  obtain ⟨statics, hstatics, h⟩ := Expansion.outcome_bind_ok h
  rw [Expansion.log_bind_of_ok hstatics]
  obtain ⟨operators, hoperators, h⟩ := Expansion.outcome_bind_ok h
  rw [Expansion.log_bind_of_ok hoperators]
  obtain ⟨properties, hproperties, h⟩ := Expansion.outcome_bind_ok h
  rw [Expansion.log_bind_of_ok hproperties]
  obtain ⟨specials, hspecials, rfl⟩ := Expansion.outcome_wrap_ok h
  rw [Expansion.log_bind_of_ok hspecials]
  simp only [List.map_append, registers_expandMembers _ _ _ hctors,
    registers_expandMembers _ _ _ hmethods, registers_expandMembers _ _ _ hstatics,
    registers_plainMembers _ _ _ hoperators, registers_plainMembers _ _ _ hproperties,
    registers_plainMembers _ _ _ hspecials]
  simp only [members, List.filterMap_append]
  rw [filterMap_memberRecord?_nil (fun _ => rfl) _ c.enums,
    filterMap_memberRecord?_nil (fun _ => rfl) _ properties,
    filterMap_memberRecord?_nil (fun _ => rfl) _ operators,
    filterMap_memberRecord?_nil (fun _ => rfl) _ specials]
  simp only [List.append_nil, Expansion.log_pure, List.map_nil, List.append_assoc]
  rfl

/-! ## Free declarations -/

/-- What a function is called and described by, with its parameters bound. -/
theorem FunctionDecl.of_instantiateAt {span : Span} {d x : FunctionDecl}
    {bindings : List TypeExpr} {newName : Option String}
    (h : d.instantiateAt span bindings newName = .ok x) :
    (paramNames d.template).length = bindings.length ∧
      x.name = instanceName d.name bindings newName ∧
      x.provenance = provenanceOf d.template d.name bindings := by
  obtain ⟨hlength, result, args, -, -, rfl⟩ :=
    eq_of_instantiate (instantiate_of_instantiateAt h)
  exact ⟨hlength, rfl, rfl⟩

theorem VariableDecl.of_instantiate {d x : VariableDecl} {bindings : List TypeExpr}
    {newName : Option String} (h : d.instantiate bindings newName = .ok x) :
    (paramNames d.template).length = bindings.length ∧
      x.name = instanceName d.name bindings newName ∧
      x.provenance = provenanceOf d.template d.name bindings := by
  obtain ⟨hlength, type, -, rfl⟩ := eq_of_instantiate h
  exact ⟨hlength, rfl, rfl⟩

theorem ForwardDecl.of_instantiateAt {span : Span} {d x : ForwardDecl}
    {bindings : List TypeExpr} {newName : Option String}
    (h : d.instantiateAt span bindings newName = .ok x) :
    x.name = instanceName d.name bindings newName ∧
      x.provenance =
        if d.template.isSome || !bindings.isEmpty then some ⟨d.name, bindings⟩ else none := by
  obtain ⟨parent, -, h⟩ := except_bind_ok h
  cases h
  exact ⟨rfl, rfl⟩

/-! ## Declarations -/

theorem contentHeld_eq_flatMap (path : List String) (ds : Content) :
    contentHeld path ds = ds.flatMap (Declaration.held path) := by
  induction ds with
  | nil => rfl
  | cons d ds ih => simp [contentHeld, ih]

/-- What is registered for the items of a declaration. -/
def Declaration.entries (path : List String) (d : Declaration) : List NameEntry :=
  (d.held path).filterMap record?

/-- What is registered for the items of several declarations. -/
def contentEntries (path : List String) (ds : Content) : List NameEntry :=
  (contentHeld path ds).filterMap record?

theorem contentEntries_eq_flatMap (path : List String) (ds : Content) :
    contentEntries path ds = ds.flatMap (Declaration.entries path) := by
  rw [contentEntries, contentHeld_eq_flatMap, List.filterMap_flatMap]
  rfl

theorem entries_cls (path : List String) (c : ClassDecl) :
    Declaration.entries path (.cls c) =
      c.members.filterMap (memberRecord? (c.namespaces ++ [c.name])) ++
        [(path, c.name, describedAs c.name c.provenance)] := by
  rw [Declaration.entries, Declaration.held, List.filterMap_append, List.filterMap_map]
  congr 1
  apply List.filterMap_congr
  intro m _
  show (m.provenance.map Provenance.description).map _ = _
  rw [Option.map_map]
  rfl

/-- The instances that a header lists, each of them with the name registered behind it. -/
theorem registers_expandListed {scope : List String} {d : Declaration}
    {template : Option Template} {make : List TypeExpr → Expansion Declaration}
    (hmake : ∀ bindings x, (make bindings).outcome = .ok x →
      (make bindings).log.map Registration.entry ++ [(scope, x.name, describe d.name bindings)] =
        x.entries scope) :
    (expandListed scope d template make).Registers (contentEntries scope) := by
  have hall : contentEntries scope = fun block => block.flatMap (Declaration.entries scope) := by
    funext block
    exact contentEntries_eq_flatMap scope block
  rw [hall]
  apply Expansion.Registers.forEach
  intro bindings _ x hx
  obtain ⟨y, hy, hx⟩ := Expansion.outcome_bind_ok hx
  obtain ⟨u, hu, rfl⟩ := Expansion.outcome_wrap_ok hx
  rw [Expansion.log_bind_of_ok hy, Expansion.log_bind_of_ok hu, ← hmake bindings y hy]
  simp only [List.map_append, Expansion.log_pure, List.append_nil]
  rfl

/-- An instance of a class with its name, which is registered last. -/
theorem entries_of_expand {span : Span} {c y : ClassDecl} {bindings : List TypeExpr}
    {newName : Option String} (h : (c.expand span bindings newName).outcome = .ok y)
    (hnew : newName = none ∨ bindings ≠ []) (scope : List String) :
    (c.expand span bindings newName).log.map Registration.entry ++
      [(scope, y.name, describe c.name bindings)] = Declaration.entries scope (.cls y) := by
  have hparts := ClassDecl.expandsTo_of_expand h
  have hdescribed : describedAs y.name y.provenance = describe c.name bindings := by
    rw [hparts.name, hparts.provenance]
    exact describedAs_provenanceOf hparts.arity hnew
  rw [entries_cls, hdescribed, ClassDecl.registers_expand _ _ _ _ y h]

theorem entries_of_function {span : Span} {d y : FunctionDecl} {bindings : List TypeExpr}
    {newName : Option String} (h : d.instantiateAt span bindings newName = .ok y)
    (hnew : newName = none ∨ bindings ≠ []) (scope : List String) :
    Declaration.entries scope (.function y) = [(scope, y.name, describe d.name bindings)] := by
  obtain ⟨hlength, hname, hprovenance⟩ := FunctionDecl.of_instantiateAt h
  rw [← describedAs_provenanceOf hlength hnew, ← hname, ← hprovenance]
  rfl

theorem entries_of_forward {span : Span} {d y : ForwardDecl} {bindings : List TypeExpr}
    {newName : Option String} (h : d.instantiateAt span bindings newName = .ok y)
    (hmade : d.template.isSome = true ∨ bindings ≠ []) (scope : List String) :
    Declaration.entries scope (.forward y) = [(scope, y.name, describe d.name bindings)] := by
  obtain ⟨hname, hprovenance⟩ := ForwardDecl.of_instantiateAt h
  rw [if_pos (by simpa using hmade)] at hprovenance
  simp [Declaration.entries, Declaration.held, record?, NamedItem.description?, hprovenance,
    NameScope.key, NamedItem.name, Declaration.name, Provenance.description]

/-- A typedef that can be written names its target with at least one type. -/
theorem Declaration.WellFormed.typedef_args {scope : List String} {d : TypedefDecl}
    (h : Declaration.WellFormed scope (.typedef d)) : d.target.args ≠ [] := by
  cases h with
  | @typedef _ type _ _ _ hargs =>
    have hne : type.args ≠ [] := by simpa [TypeExpr.isTemplated] using hargs
    exact hne

/-- The instance of a typedef, whose name is registered where the typedef stands. -/
theorem registers_expandTypedef {index : TypedefIndex} {scope : List String} {d : TypedefDecl}
    (hd : Declaration.WellFormed scope (.typedef d)) :
    (expandTypedef index d).Registers (Declaration.entries scope) := by
  have hargs : d.target.args ≠ [] := hd.typedef_args
  have hscope : d.namespaces = scope := hd.scoped
  intro x h
  obtain ⟨target, ht, h⟩ := Expansion.outcome_bind_ok h
  obtain ⟨y, hy, h⟩ := Expansion.outcome_bind_ok h
  obtain ⟨u, hu, rfl⟩ := Expansion.outcome_wrap_ok h
  have hlog : (expandTypedef index d).log.map Registration.entry =
      (target.expand d.span d.target.args d.newName).log.map Registration.entry ++
        [(scope, d.newName, describe target.name d.target.args)] := by
    rw [expandTypedef, Expansion.log_bind_of_ok ht, Expansion.log_bind_of_ok hy,
      Expansion.log_bind_of_ok hu, hscope]
    simp only [List.map_append, Expansion.log_pure, List.append_nil]
    rfl
  rw [hlog]
  cases target with
  | cls c =>
    obtain ⟨z, hz, rfl⟩ := Expansion.outcome_wrap_ok hy
    have hname : z.name = d.newName := (ClassDecl.expandsTo_of_expand hz).name
    rw [← entries_of_expand hz (.inr hargs) scope, hname, Target.expand,
      Expansion.log_bind_of_ok hz, Expansion.log_pure, List.append_nil]
    rfl
  | function f =>
    obtain ⟨z, hz, rfl⟩ := Expansion.outcome_wrap_ok hy
    have hname : z.name = d.newName := (FunctionDecl.of_instantiateAt hz).2.1
    rw [entries_of_function hz (.inr hargs) scope, hname, Target.expand,
      Expansion.log_bind_of_ok hz]
    rfl
  | forward f =>
    obtain ⟨z, hz, rfl⟩ := Expansion.outcome_wrap_ok hy
    have hname : z.name = d.newName := (ForwardDecl.of_instantiateAt hz).1
    rw [entries_of_forward hz (.inr hargs) scope, hname, Target.expand,
      Expansion.log_bind_of_ok hz]
    rfl

mutual

/-- What has been registered when a declaration is expanded can be told from its block. -/
theorem registers_expandDeclaration (index : TypedefIndex) {scope : List String} (d : Declaration)
    (hd : d.WellFormed scope) :
    (expandDeclaration index scope d).Registers (contentEntries scope) := by
  cases d with
  | inclusion d => exact .pure rfl
  | enumeration d => exact .pure rfl
  | space name content span =>
    cases hd with
    | space _ hc =>
      -- a namespace registers nothing by itself
      refine Expansion.Registers.wrap ?_
      intro inner hinner
      rw [registers_expandContent index content hc inner hinner]
      simp [contentEntries, contentHeld, Declaration.held, record?, NamedItem.description?]
  | cls d =>
    apply registers_expandListed
    intro bindings x hx
    obtain ⟨y, hy, rfl⟩ := Expansion.outcome_wrap_ok hx
    rw [← entries_of_expand hy (.inl rfl) scope, Expansion.log_bind_of_ok hy, Expansion.log_pure,
      List.append_nil]
    rfl
  | function d =>
    apply registers_expandListed
    intro bindings x hx
    obtain ⟨y, hy, rfl⟩ := Expansion.outcome_wrap_ok hx
    rw [entries_of_function hy (.inl rfl) scope, Expansion.log_bind_of_ok hy]
    rfl
  | var d =>
    apply registers_expandListed
    intro bindings x hx
    obtain ⟨y, hy, rfl⟩ := Expansion.outcome_wrap_ok hx
    obtain ⟨hlength, hname, hprovenance⟩ := VariableDecl.of_instantiate hy
    have hdescribed : describedAs y.name y.provenance = describe d.name bindings := by
      rw [hname, hprovenance]
      exact describedAs_provenanceOf hlength (.inl rfl)
    rw [Expansion.log_bind_of_ok hy]
    show [(scope, y.name, describe d.name bindings)] = [(scope, y.name, _)]
    rw [← hdescribed]
  | forward d =>
    rw [expandDeclaration]
    cases ht : d.template with
    | none =>
      have hplain : d.provenance = none := by
        cases hd with
        | forward => rfl
      apply Expansion.Registers.pure
      simp [contentEntries, contentHeld, Declaration.held, record?, NamedItem.description?, hplain]
    | some t =>
      rw [if_pos Option.isSome_some]
      apply registers_expandListed
      intro bindings x hx
      obtain ⟨y, hy, rfl⟩ := Expansion.outcome_wrap_ok hx
      rw [entries_of_forward hy (.inl (by simp [ht])) scope, Expansion.log_bind_of_ok hy]
      rfl
  | typedef d =>
    refine Expansion.Registers.wrap ?_
    intro x hx
    rw [registers_expandTypedef hd x hx]
    simp [contentEntries, contentHeld, Declaration.entries]

/-- What has been registered when declarations are expanded can be told from the result. -/
theorem registers_expandContent (index : TypedefIndex) {scope : List String} (ds : Content)
    (hds : ∀ d ∈ ds, d.WellFormed scope) :
    (expandContent index scope ds).Registers (contentEntries scope) := by
  cases ds with
  | nil => exact .pure rfl
  | cons d ds =>
    rw [List.forall_mem_cons] at hds
    intro out h
    obtain ⟨here, hhere, h⟩ := Expansion.outcome_bind_ok h
    obtain ⟨rest, hrest, rfl⟩ := Expansion.outcome_wrap_ok h
    rw [expandContent, Expansion.log_bind_of_ok hhere, Expansion.log_bind_of_ok hrest,
      Expansion.log_pure, List.append_nil, List.map_append,
      registers_expandDeclaration index d hds.1 here hhere,
      registers_expandContent index ds hds.2 rest hrest, contentEntries_eq_flatMap,
      contentEntries_eq_flatMap, contentEntries_eq_flatMap, List.flatMap_append]

end

end TemplateIdl
