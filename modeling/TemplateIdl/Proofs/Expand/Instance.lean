import TemplateIdl.Expand.Class
import TemplateIdl.Proofs.Decl.Words
import TemplateIdl.Proofs.Expand.Outcome
import TemplateIdl.Proofs.Expand.Substitution

/-!
# Instance — the types in an instance of a class

The types in an instance are those of the class, each substituted. Members with a header of their
own count once for each combination that it lists, and then their parameters are bound, too.

* `ClassDecl.types`, the types in a class;
* `ClassDecl.bound` and `ClassDecl.uses`, what is bound in an instance, and the types of the class
  with what is bound in each of them; `ClassDecl.frame`, what the members of an instance share;
* `Substituted`, types that come from others by substitution, and `substituted_arguments` and
  its neighbours, those in signatures do;
* `Expansion.exists_forEach`, expansions that succeed one by one succeed together;
* `ClassDecl.exists_expand`, with a type for each parameter there is an instance, and its types are
  those of the class, substituted in order;
* `ClassDecl.ExpandsTo` and `ClassDecl.expandsTo_of_expand`, the parts of an instance, each expanded
  from one of the class.
-/

namespace TemplateIdl

/-! ## Types in declarations -/

/-- The types in a result. -/
def ReturnType.types : ReturnType → List TypeExpr
  | .single t => [t]
  | .pair s t => [s, t]

/-- The types of arguments. -/
def argumentTypes (args : List Argument) : List TypeExpr := args.map Argument.type

namespace Member

/-- The header of a member of its own. -/
def template : Member → Option Template
  | .ctor d => d.template
  | .method d => d.template
  | .static d => d.template
  | .special _ | .operator _ | .property _ | .enumeration _ => none

/-- The types in a member. -/
def types : Member → List TypeExpr
  | .ctor d => argumentTypes d.args
  | .method d => d.result.types ++ argumentTypes d.args
  | .static d => d.result.types ++ argumentTypes d.args
  | .special d => argumentTypes d.args
  | .operator d => d.result.types ++ argumentTypes d.args
  | .property d => [d.type]
  | .enumeration _ => []

/-- What is bound in the instances of a member of a class in which `σ` is bound: one substitution
for each instance. -/
def substitutions (σ : Substitution) (m : Member) : List Substitution :=
  match m.template with
  | none => [σ]
  | some h => h.combinations.map fun bindings => σ.extend h.names bindings

/-- The types in a member with what is bound in them. -/
def uses (σ : Substitution) (m : Member) : List (Substitution × TypeExpr) :=
  (m.substitutions σ).flatMap fun τ => m.types.map fun t => (τ, t)

end Member

namespace ClassDecl

/-- The types in a class: the parent, and those of the members. -/
def types (c : ClassDecl) : List TypeExpr :=
  c.parent.toList ++ c.members.flatMap Member.types

/-- What is bound in an instance: the parameters, and the class as `This`. -/
def bound (c : ClassDecl) (bindings : List TypeExpr) : Substitution :=
  (Substitution.empty.extend (paramNames c.template) bindings).withThis
    (.ofPath c.namespaces c.name bindings)

/-- What the members of an instance have in common. -/
def frame (c : ClassDecl) (bindings : List TypeExpr) (name : String) : ClassContext :=
  c.context (Substitution.empty.extend (paramNames c.template) bindings) bindings name

/-- The types in a class with what is bound in them. -/
def uses (c : ClassDecl) (bindings : List TypeExpr) : List (Substitution × TypeExpr) :=
  (c.parent.toList.map fun t => (c.bound bindings, t)) ++
    c.members.flatMap (Member.uses (c.bound bindings))

end ClassDecl

/-! ## Substituting in signatures -/

/-- The type uses become those of another list. -/
def Substituted (uses : List (Substitution × TypeExpr)) (ts : List TypeExpr) : Prop :=
  List.Forall₂ (fun s t => s.1.subst? s.2 = some t) uses ts

theorem Substituted.append {uses uses' : List (Substitution × TypeExpr)} {ts ts' : List TypeExpr}
    (h : Substituted uses ts) (h' : Substituted uses' ts') :
    Substituted (uses ++ uses') (ts ++ ts') :=
  List.rel_append h h'

namespace Substitution

variable {σ : Substitution}

theorem substituted_arguments {args args' : List Argument}
    (h : σ.substArguments? args = some args') :
    Substituted ((argumentTypes args).map fun t => (σ, t)) (argumentTypes args') := by
  induction args generalizing args' with
  | nil =>
    cases h
    exact .nil
  | cons a args ih =>
    simp only [substArguments?, Option.bind_eq_bind, Option.bind_eq_some_iff,
      Option.some.injEq] at h
    obtain ⟨type, htype, args', hargs, rfl⟩ := h
    exact .cons htype (ih hargs)

theorem substituted_return {r r' : ReturnType} (h : σ.substReturn? r = some r') :
    Substituted (r.types.map fun t => (σ, t)) r'.types := by
  cases r with
  | single t =>
    simp only [substReturn?, Option.bind_eq_bind, Option.bind_eq_some_iff, Option.some.injEq] at h
    obtain ⟨t', ht, rfl⟩ := h
    exact .cons ht .nil
  | pair s t =>
    simp only [substReturn?, Option.bind_eq_bind, Option.bind_eq_some_iff, Option.some.injEq] at h
    obtain ⟨s', hs, t', ht, rfl⟩ := h
    exact .cons hs (.cons ht .nil)

theorem substituted_option {o o' : Option TypeExpr} (h : σ.substOption? o = some o') :
    Substituted (o.toList.map fun t => (σ, t)) o'.toList := by
  cases o with
  | none =>
    cases h
    exact .nil
  | some t =>
    simp only [substOption?, Option.bind_eq_bind, Option.bind_eq_some_iff, Option.some.injEq] at h
    obtain ⟨t', ht, rfl⟩ := h
    exact .cons ht .nil

/-- A result and arguments together, as callables have them. -/
theorem substituted_callable {r r' : ReturnType} {args args' : List Argument}
    (hr : σ.substReturn? r = some r') (hargs : σ.substArguments? args = some args') :
    Substituted ((r.types ++ argumentTypes args).map fun t => (σ, t))
      (r'.types ++ argumentTypes args') := by
  rw [List.map_append]
  exact (substituted_return hr).append (substituted_arguments hargs)

/-- A signature can be substituted if all types in it can. -/
theorem exists_substArguments?_of {args : List Argument}
    (h : ∀ t ∈ argumentTypes args, ∃ t', σ.subst? t = some t') :
    ∃ args', σ.substArguments? args = some args' := by
  induction args with
  | nil => exact ⟨[], rfl⟩
  | cons a args ih =>
    rw [argumentTypes, List.map_cons, List.forall_mem_cons] at h
    obtain ⟨type, htype⟩ := h.1
    obtain ⟨args', hargs⟩ := ih h.2
    exact ⟨{ a with type := type } :: args', by simp [substArguments?, htype, hargs]⟩

theorem exists_substReturn?_of {r : ReturnType} (h : ∀ t ∈ r.types, ∃ t', σ.subst? t = some t') :
    ∃ r', σ.substReturn? r = some r' := by
  cases r with
  | single t =>
    obtain ⟨t', ht⟩ := h t (by simp [ReturnType.types])
    exact ⟨.single t', by simp [substReturn?, ht]⟩
  | pair s t =>
    obtain ⟨s', hs⟩ := h s (by simp [ReturnType.types])
    obtain ⟨t', ht⟩ := h t (by simp [ReturnType.types])
    exact ⟨.pair s' t', by simp [substReturn?, hs, ht]⟩

theorem exists_substOption?_of {o : Option TypeExpr}
    (h : ∀ t ∈ o.toList, ∃ t', σ.subst? t = some t') : ∃ o', σ.substOption? o = some o' := by
  cases o with
  | none => exact ⟨none, rfl⟩
  | some t =>
    obtain ⟨t', ht⟩ := h t (by simp)
    exact ⟨some t', by simp [substOption?, ht]⟩

theorem exists_substArguments? (h : σ.this.isSome = true) (args : List Argument) :
    ∃ args', σ.substArguments? args = some args' :=
  exists_substArguments?_of fun t _ => exists_subst? h t

theorem exists_substReturn? (h : σ.this.isSome = true) (r : ReturnType) :
    ∃ r', σ.substReturn? r = some r' :=
  exists_substReturn?_of fun t _ => exists_subst? h t

theorem exists_substOption? (h : σ.this.isSome = true) (o : Option TypeExpr) :
    ∃ o', σ.substOption? o = some o' :=
  exists_substOption?_of fun t _ => exists_subst? h t

end Substitution

/-! ## Expansions that succeed -/

theorem ok_of_resolved {α : Type} {name : String} {span : Span} {x : Option α} {a : α}
    (h : resolved name span x = .ok a) : x = some a := by
  cases x with
  | none => cases h
  | some b =>
    cases h
    rfl

theorem resolved_map {α β : Type} (name : String) (span : Span) (f : α → β) (x : Option α) :
    resolved name span (x.map f) = (resolved name span x).map f := by
  cases x <;> rfl

/-- A substitution that is bound has the parameters and no class. -/
theorem Substitution.bind_ok {name : String} {params : List String} {types : List TypeExpr}
    {span : Span} {σ : Substitution} (h : bind name params types span = .ok σ) :
    params.length = types.length ∧ σ = empty.extend params types := by
  unfold bind at h
  by_cases hl : params.length = types.length
  · rw [if_pos hl] at h
    cases h
    exact ⟨hl, rfl⟩
  · rw [if_neg hl] at h
    cases h

namespace Expansion

variable {α β : Type}

/-- Things that are expanded one by one, each of them without a failure. -/
theorem exists_forEach {f : α → Expansion β} {uses : α → List (Substitution × TypeExpr)}
    {types : β → List TypeExpr} {as : List α}
    (h : ∀ a ∈ as, ∃ b, (f a).outcome = .ok b ∧ Substituted (uses a) (types b)) :
    ∃ bs, (forEach f as).outcome = .ok bs ∧ Substituted (as.flatMap uses) (bs.flatMap types) := by
  induction as with
  | nil => exact ⟨[], rfl, .nil⟩
  | cons a as ih =>
    rw [List.forall_mem_cons] at h
    obtain ⟨b, hb, hsub⟩ := h.1
    obtain ⟨bs, hbs, hrest⟩ := ih h.2
    refine ⟨b :: bs, ?_, hsub.append hrest⟩
    simp [forEach, hb, hbs, Except.bind]

end Expansion

/-! ## Members -/

/-- A kind of members that may have a header, among all members. -/
class MemberKind (μ : Type) [TemplatedMember μ] where
  member : μ → Member
  template_member (d : μ) : (member d).template = TemplatedMember.template d
  /-- Inside a class, a member of the kind becomes one with the types substituted. -/
  exists_concrete? (σ : Substitution) (h : σ.this.isSome = true) (owner : Typename)
    (name : String) (provenance : Option Provenance) (d : μ) :
    ∃ d', TemplatedMember.concrete? σ owner name provenance d = some d' ∧
      Substituted ((member d).types.map fun t => (σ, t)) (member d').types

instance : MemberKind Constructor where
  member := .ctor
  template_member _ := rfl
  exists_concrete? σ h owner name provenance d := by
    obtain ⟨args, hargs⟩ := Substitution.exists_substArguments? h d.args
    simp only [TemplatedMember.concrete?, hargs]
    exact ⟨_, rfl, Substitution.substituted_arguments hargs⟩

instance : MemberKind Method where
  member := .method
  template_member _ := rfl
  exists_concrete? σ h owner name provenance d := by
    obtain ⟨r, hr⟩ := Substitution.exists_substReturn? h d.result
    obtain ⟨args, hargs⟩ := Substitution.exists_substArguments? h d.args
    simp only [TemplatedMember.concrete?, hr, hargs]
    exact ⟨_, rfl, Substitution.substituted_callable hr hargs⟩

instance : MemberKind StaticMethod where
  member := .static
  template_member _ := rfl
  exists_concrete? σ h owner name provenance d := by
    obtain ⟨r, hr⟩ := Substitution.exists_substReturn? h d.result
    obtain ⟨args, hargs⟩ := Substitution.exists_substArguments? h d.args
    simp only [TemplatedMember.concrete?, hr, hargs]
    exact ⟨_, rfl, Substitution.substituted_callable hr hargs⟩

section Members

variable {μ : Type} [TemplatedMember μ] [MemberKind μ] {x : ClassContext}

open MemberKind

theorem exists_concreteMember {σ : Substitution} (h : σ.this.isSome = true) (x : ClassContext)
    (name : String) (provenance : Option Provenance) (d : μ) :
    ∃ d', (concreteMember x σ name provenance d).outcome = .ok d' ∧
      Substituted ((member d).types.map fun t => (σ, t)) (member d').types := by
  obtain ⟨d', hd', hsub⟩ := exists_concrete? σ h x.owner name provenance d
  exact ⟨d', by simp [concreteMember, hd', resolved], hsub⟩

/-- The instances of a member. -/
theorem exists_expandMember (h : x.substitution.this.isSome = true) (base : μ → String) (d : μ) :
    ∃ ds, (expandMember x base d).outcome = .ok ds ∧
      Substituted ((member d).uses x.substitution) (ds.flatMap fun d' => (member d').types) := by
  unfold expandMember Member.uses Member.substitutions
  rw [template_member]
  cases TemplatedMember.template d with
  | none =>
    obtain ⟨d', hd', hsub⟩ := exists_concreteMember h x (base d) none d
    refine ⟨[d'], ?_, ?_⟩
    · simp [hd', Except.bind]
    · simpa using hsub
  | some t =>
    dsimp only
    rw [List.flatMap_map]
    refine Expansion.exists_forEach ?_
    intro bindings _
    obtain ⟨d', hd', hsub⟩ := exists_concreteMember (σ := x.substitution.extend t.names bindings)
      h x (generatedName (base d) bindings) (some ⟨TemplatedMember.name d, bindings⟩) d
    refine ⟨d', ?_, hsub⟩
    simp [hd', Except.bind]

/-- The instances of all members of a kind. -/
theorem exists_expandMembers (h : x.substitution.this.isSome = true) (base : μ → String)
    (ds : List μ) :
    ∃ ds', (expandMembers x base ds).outcome = .ok ds' ∧
      Substituted ((ds.map member).flatMap (Member.uses x.substitution))
        ((ds'.map member).flatMap Member.types) := by
  obtain ⟨groups, hgroups, hsub⟩ := Expansion.exists_forEach fun d (_ : d ∈ ds) =>
    exists_expandMember h base d
  refine ⟨groups.flatten, by simp [expandMembers, hgroups, Except.bind], ?_⟩
  rw [List.flatMap_map, List.flatMap_map, List.flatten_eq_flatMap, List.flatMap_assoc]
  exact hsub

end Members

/-! ## Classes -/

/-- Members without a header become what is substituted in them. -/
theorem exists_plainMembers {μ : Type} (member : μ → Member) (name : μ → String)
    (span : μ → Span) {x : ClassContext} {concrete? : μ → Option μ}
    (htemplate : ∀ d, (member d).template = none)
    (h : ∀ d, ∃ d', concrete? d = some d' ∧
      Substituted ((member d).types.map fun t => (x.substitution, t)) (member d').types)
    (ds : List μ) :
    ∃ ds', (Expansion.forEach (fun d => .lift (resolved (name d) (span d) (concrete? d)))
        ds).outcome = .ok ds' ∧
      Substituted ((ds.map member).flatMap (Member.uses x.substitution))
        ((ds'.map member).flatMap Member.types) := by
  simp only [List.flatMap_map]
  refine Expansion.exists_forEach ?_
  intro d _
  obtain ⟨d', hd', hsub⟩ := h d
  refine ⟨d', by simp [hd', resolved], ?_⟩
  simpa [Member.uses, Member.substitutions, htemplate d] using hsub

section Plain

variable {x : ClassContext} (h : x.substitution.this.isSome = true)

include h

theorem exists_operator (d : OperatorMethod) : ∃ d', OperatorMethod.concrete? x d = some d' ∧
    Substituted ((Member.operator d).types.map fun t => (x.substitution, t))
      (Member.operator d').types := by
  obtain ⟨r, hr⟩ := Substitution.exists_substReturn? h d.result
  obtain ⟨args, hargs⟩ := Substitution.exists_substArguments? h d.args
  simp only [OperatorMethod.concrete?, hr, hargs]
  exact ⟨_, rfl, Substitution.substituted_callable hr hargs⟩

theorem exists_property (d : VariableDecl) : ∃ d', VariableDecl.concrete? x d = some d' ∧
    Substituted ((Member.property d).types.map fun t => (x.substitution, t))
      (Member.property d').types := by
  obtain ⟨type, htype⟩ := Substitution.exists_subst? h d.type
  simp only [VariableDecl.concrete?, htype]
  exact ⟨_, rfl, .cons htype .nil⟩

theorem exists_special (d : SpecialMethod) : ∃ d', SpecialMethod.concrete? x d = some d' ∧
    Substituted ((Member.special d).types.map fun t => (x.substitution, t))
      (Member.special d').types := by
  obtain ⟨args, hargs⟩ := Substitution.exists_substArguments? h d.args
  simp only [SpecialMethod.concrete?, hargs]
  exact ⟨_, rfl, Substitution.substituted_arguments hargs⟩

end Plain

theorem plainMembers_ok {μ : Type} {name : μ → String} {span : μ → Span} {concrete? : μ → Option μ}
    {ds ds' : List μ}
    (h : (Expansion.forEach (fun d => .lift (resolved (name d) (span d) (concrete? d)))
      ds).outcome = .ok ds') :
    List.Forall₂ (fun d d' => concrete? d = some d') ds ds' :=
  (Expansion.outcome_forEach_ok h).imp fun _ _ => ok_of_resolved

/-- There are no types in enumerations. -/
theorem substituted_enumerations (σ : Substitution) (ds : List EnumDecl) :
    Substituted ((ds.map Member.enumeration).flatMap (Member.uses σ))
      ((ds.map Member.enumeration).flatMap Member.types) := by
  induction ds with
  | nil => exact .nil
  | cons d ds ih => exact ih

/-- With a type for each parameter there is an instance, and the types in it are those of the
class in order, each substituted. -/
theorem ClassDecl.exists_expand {c : ClassDecl} {bindings : List TypeExpr}
    (h : (paramNames c.template).length = bindings.length) (span : Span)
    (newName : Option String) :
    ∃ x, (c.expand span bindings newName).outcome = .ok x ∧
      Substituted (c.uses bindings) x.types := by
  let name := instanceName c.name bindings newName
  let x := c.context (.extend .empty (paramNames c.template) bindings) bindings name
  have hthis : x.substitution.this.isSome = true := rfl
  obtain ⟨parent, hparent⟩ := Substitution.exists_substOption? hthis c.parent
  obtain ⟨ctors, hctors, hctor⟩ := exists_expandMembers hthis (fun _ => name) c.ctors
  obtain ⟨methods, hmethods, hmethod⟩ := exists_expandMembers hthis Method.name c.methods
  obtain ⟨statics, hstatics, hstatic⟩ := exists_expandMembers hthis StaticMethod.name c.statics
  obtain ⟨operators, hoperators, hoperator⟩ := exists_plainMembers Member.operator
    OperatorMethod.name OperatorMethod.span (fun _ => rfl) (exists_operator hthis) c.operators
  obtain ⟨properties, hproperties, hproperty⟩ := exists_plainMembers Member.property
    VariableDecl.name VariableDecl.span (fun _ => rfl) (exists_property hthis) c.properties
  obtain ⟨specials, hspecials, hspecial⟩ := exists_plainMembers Member.special
    SpecialMethod.name SpecialMethod.span (fun _ => rfl) (exists_special hthis) c.specials
  have hbind : Substitution.bind c.name (paramNames c.template) bindings span =
      .ok (.extend .empty (paramNames c.template) bindings) := if_pos h
  have hresolved : resolved c.name c.span (x.substitution.substOption? c.parent) = .ok parent := by
    rw [hparent, resolved]
  refine ⟨{ c with
    name := name
    template := none
    parent := parent
    ctors := ctors
    methods := methods
    statics := statics
    specials := specials
    operators := operators
    properties := properties
    provenance := provenanceOf c.template c.name bindings }, ?_, ?_⟩
  · refine (Expansion.outcome_bind_of_ok hbind).trans ?_
    refine (Expansion.outcome_bind_of_ok hresolved).trans ?_
    refine (Expansion.outcome_bind_of_ok hctors).trans ?_
    refine (Expansion.outcome_bind_of_ok hmethods).trans ?_
    refine (Expansion.outcome_bind_of_ok hstatics).trans ?_
    refine (Expansion.outcome_bind_of_ok hoperators).trans ?_
    refine (Expansion.outcome_bind_of_ok hproperties).trans ?_
    exact Expansion.outcome_bind_of_ok hspecials
  · -- special methods are expanded last but stand in front of the operators
    have hmembers := ((((hctor.append hmethod).append hstatic).append hspecial).append
      hoperator).append hproperty
    unfold uses types members
    simp only [List.flatMap_append]
    have hparents := Substitution.substituted_option hparent
    exact hparents.append (hmembers.append (substituted_enumerations _ c.enums))

/-- The class `y` is made from `c` part by part, with `bindings` and maybe a new name. -/
structure ClassDecl.ExpandsTo (c : ClassDecl) (bindings : List TypeExpr)
    (newName : Option String) (y : ClassDecl) : Prop where
  arity : (paramNames c.template).length = bindings.length
  name : y.name = instanceName c.name bindings newName
  template : y.template = none
  isVirtual : y.isVirtual = c.isVirtual
  parent : (c.bound bindings).substOption? c.parent = some y.parent
  ctors : (expandMembers (c.frame bindings y.name) (fun _ => y.name) c.ctors).outcome = .ok y.ctors
  methods : (expandMembers (c.frame bindings y.name) Method.name c.methods).outcome = .ok y.methods
  statics :
    (expandMembers (c.frame bindings y.name) StaticMethod.name c.statics).outcome = .ok y.statics
  specials :
    List.Forall₂ (fun d d' => SpecialMethod.concrete? (c.frame bindings y.name) d = some d')
      c.specials y.specials
  operators :
    List.Forall₂ (fun d d' => OperatorMethod.concrete? (c.frame bindings y.name) d = some d')
      c.operators y.operators
  properties :
    List.Forall₂ (fun d d' => VariableDecl.concrete? (c.frame bindings y.name) d = some d')
      c.properties y.properties
  enums : y.enums = c.enums
  namespaces : y.namespaces = c.namespaces
  span : y.span = c.span
  provenance : y.provenance = provenanceOf c.template c.name bindings

/-- An expansion of a class that succeeds consists of expansions of its parts. -/
theorem ClassDecl.expandsTo_of_expand {span : Span} {c y : ClassDecl} {bindings : List TypeExpr}
    {newName : Option String} (h : (c.expand span bindings newName).outcome = .ok y) :
    c.ExpandsTo bindings newName y := by
  obtain ⟨σ, hσ, h⟩ := Expansion.outcome_bind_ok h
  obtain ⟨parent, hparent, h⟩ := Expansion.outcome_bind_ok h
  obtain ⟨ctors, hctors, h⟩ := Expansion.outcome_bind_ok h
  obtain ⟨methods, hmethods, h⟩ := Expansion.outcome_bind_ok h
  obtain ⟨statics, hstatics, h⟩ := Expansion.outcome_bind_ok h
  obtain ⟨operators, hoperators, h⟩ := Expansion.outcome_bind_ok h
  obtain ⟨properties, hproperties, h⟩ := Expansion.outcome_bind_ok h
  obtain ⟨specials, hspecials, rfl⟩ := Expansion.outcome_wrap_ok h
  obtain ⟨hlength, rfl⟩ := Substitution.bind_ok hσ
  exact {
    arity := hlength
    name := rfl
    template := rfl
    isVirtual := rfl
    parent := ok_of_resolved hparent
    ctors := hctors
    methods := hmethods
    statics := hstatics
    specials := plainMembers_ok hspecials
    operators := plainMembers_ok hoperators
    properties := plainMembers_ok hproperties
    enums := rfl
    namespaces := rfl
    span := rfl
    provenance := rfl }

end TemplateIdl
