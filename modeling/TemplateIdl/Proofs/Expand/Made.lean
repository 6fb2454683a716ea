import TemplateIdl.Proofs.Expand.Faults
import TemplateIdl.Proofs.Expand.Held
import TemplateIdl.Proofs.Expand.Report

/-!
# Made — instances part by part

* `Grouped`, a list that consists of one group for each element of another one;
* `Member.Made`, `ClassDecl.Made` and `Declaration.Made`, what an instance has from its generic
  declaration and from its bindings;
* `ClassDecl.made_of_expand`, every instance of a class is made like that;
* `Blocks.exists_block`, a declaration of an expanded file stands in the block of a declaration at
  the same depth;
* `Requested` and `Declaration.Issues`, the instances that the file asks for;
* `Declaration.IsSource` and `issues_of_block`, a declaration is issued by the one in whose block it
  stands, or by the target if that one is a typedef, and so it is made from that (`made_of_block`);
* `Interface.exists_issues`, the same for files that are read.
-/

namespace TemplateIdl

/-! ## Groups -/

/-- The list consists of one group for each element of another list, in order. -/
inductive Grouped {α β : Type} (R : α → List β → Prop) : List α → List β → Prop
  | nil : Grouped R [] []
  | cons {a : α} {as : List α} {group bs : List β} (h : R a group) (hs : Grouped R as bs) :
      Grouped R (a :: as) (group ++ bs)

namespace Grouped

variable {α β γ δ : Type} {R : α → List β → Prop}

theorem append {as as' : List α} {bs bs' : List β} (h : Grouped R as bs)
    (h' : Grouped R as' bs') : Grouped R (as ++ as') (bs ++ bs') := by
  induction h with
  | nil => exact h'
  | cons hg _ ih =>
    rw [List.cons_append, List.append_assoc]
    exact .cons hg ih

theorem map {S : γ → List δ → Prop} {f : α → γ} {g : β → δ} {as : List α} {bs : List β}
    (h : Grouped R as bs) (hstep : ∀ a group, R a group → S (f a) (group.map g)) :
    Grouped S (as.map f) (bs.map g) := by
  induction h with
  | nil => exact .nil
  | cons hg _ ih =>
    rw [List.map_cons, List.map_append]
    exact .cons (hstep _ _ hg) ih

theorem imp {S : α → List β → Prop} {as : List α} {bs : List β} (h : Grouped R as bs)
    (hstep : ∀ a group, R a group → S a group) : Grouped S as bs := by
  have hmap := h.map (S := S) (f := id) (g := id) (by simpa using hstep)
  simpa using hmap

/-- Each element stands in the group of an element. -/
theorem exists_of_mem {as : List α} {bs : List β} (h : Grouped R as bs) {b : β} (hb : b ∈ bs) :
    ∃ a ∈ as, ∃ group, R a group ∧ b ∈ group := by
  induction h with
  | nil => cases hb
  | @cons a as group bs hg _ ih =>
    rcases List.mem_append.1 hb with hb | hb
    · exact ⟨a, List.mem_cons_self, group, hg, hb⟩
    · obtain ⟨a', ha', group', hg', hb'⟩ := ih hb
      exact ⟨a', List.mem_cons_of_mem a ha', group', hg', hb'⟩

/-- Groups of one element each. -/
theorem of_forall₂ {S : α → β → Prop} {as : List α} {bs : List β} (h : List.Forall₂ S as bs)
    (hstep : ∀ a b, S a b → R a [b]) : Grouped R as bs := by
  induction h with
  | nil => exact .nil
  | @cons a b as bs hg _ ih =>
    rw [← List.singleton_append]
    exact .cons (hstep a b hg) ih

/-- Where all groups have one element and the list is grouped for itself, each element is its own
group. -/
theorem self {R : α → List α → Prop} {as : List α} (h : Grouped R as as)
    (hone : ∀ a ∈ as, ∀ group, R a group → ∃ b, group = [b]) : ∀ a ∈ as, R a [a] := by
  have hall : ∀ {as bs : List α}, Grouped R as bs →
      (∀ a ∈ as, ∀ group, R a group → ∃ b, group = [b]) →
      List.Forall₂ (fun a b => R a [b]) as bs := by
    intro as bs h hone
    induction h with
    | nil => exact .nil
    | cons hg _ ih =>
      rw [List.forall_mem_cons] at hone
      obtain ⟨b, rfl⟩ := hone.1 _ hg
      exact .cons hg (ih hone.2)
  exact List.forall₂_same.1 (hall h hone)

end Grouped

theorem Expansion.grouped_of_forEach {α β : Type} {f : α → Expansion (List β)} {as : List α}
    {groups : List (List β)} (h : (forEach f as).outcome = .ok groups) :
    Grouped (fun a group => (f a).outcome = .ok group) as groups.flatten := by
  have hgroups := outcome_forEach_ok h
  clear h
  induction hgroups with
  | nil => exact .nil
  | cons hg _ ih => exact .cons hg ih

/-! ## Members of an instance -/

/-- What is bound in an instance of a member with the header given. -/
def ClassContext.bound (x : ClassContext) (template : Option Template)
    (bindings : List TypeExpr) : Substitution :=
  x.substitution.extend (paramNames template) bindings

/-- What a member becomes in the class `className` that `x` describes, with `bindings` for the
parameters of its own. -/
inductive Member.Made (x : ClassContext) (className : String) (bindings : List TypeExpr) :
    Member → Member → Prop
  | ctor {d : Constructor} {args : List Argument}
      (hargs : (x.bound d.template bindings).substArguments? d.args = some args) :
      Made x className bindings (.ctor d)
        (.ctor ⟨generatedName className bindings, args, x.owner, none, d.span,
          provenanceOf d.template d.name bindings⟩)
  | method {d : Method} {result : ReturnType} {args : List Argument}
      (hresult : (x.bound d.template bindings).substReturn? d.result = some result)
      (hargs : (x.bound d.template bindings).substArguments? d.args = some args) :
      Made x className bindings (.method d)
        (.method ⟨generatedName d.name bindings, result, args, d.isConst, x.owner, none, d.span,
          provenanceOf d.template d.name bindings⟩)
  | static {d : StaticMethod} {result : ReturnType} {args : List Argument}
      (hresult : (x.bound d.template bindings).substReturn? d.result = some result)
      (hargs : (x.bound d.template bindings).substArguments? d.args = some args) :
      Made x className bindings (.static d)
        (.static ⟨generatedName d.name bindings, result, args, x.owner, none, d.span,
          provenanceOf d.template d.name bindings⟩)
  | special {d : SpecialMethod} {args : List Argument}
      (hargs : x.substitution.substArguments? d.args = some args) :
      Made x className bindings (.special d) (.special { d with args := args, owner := x.owner })
  | operator {d : OperatorMethod} {result : ReturnType} {args : List Argument}
      (hresult : x.substitution.substReturn? d.result = some result)
      (hargs : x.substitution.substArguments? d.args = some args) :
      Made x className bindings (.operator d)
        (.operator { d with result := result, args := args, owner := x.owner })
  | property {d : VariableDecl} {type : TypeExpr}
      (htype : x.substitution.subst? d.type = some type) :
      Made x className bindings (.property d)
        (.property { d with type := type, owner := some x.owner })
  | enumeration (d : EnumDecl) : Made x className bindings (.enumeration d) (.enumeration d)

namespace Member

variable {x : ClassContext} {className : String} {bindings : List TypeExpr} {g m : Member}

/-- The instances of a member, one for each combination that its header lists. -/
def Instances (x : ClassContext) (className : String) (g : Member) (ms : List Member) : Prop :=
  List.Forall₂ (fun bindings m => Made x className bindings g m) (combinationsOf g.template) ms

theorem Made.template (h : Made x className bindings g m) : m.template = none := by
  cases h <;> rfl

theorem Made.span (h : Made x className bindings g m) : m.span = g.span := by
  cases h <;> rfl

/-- An instance records its own parameters only. -/
theorem Made.provenance (h : Made x className bindings g m) :
    m.provenance = provenanceOf g.template g.name bindings := by
  cases h <;> rfl

end Member

/-- A kind of members whose instances are made as `Member.Made` says. -/
class MadeMember (μ : Type) [TemplatedMember μ] [MemberKind μ] where
  base (className : String) (d : μ) : String
  made_of_concrete? {x : ClassContext} {className : String} {bindings : List TypeExpr} {d d' : μ}
    (h : TemplatedMember.concrete? (x.bound (TemplatedMember.template d) bindings) x.owner
      (generatedName (base className d) bindings)
      (provenanceOf (TemplatedMember.template d) (TemplatedMember.name d) bindings) d = some d') :
    Member.Made x className bindings (MemberKind.member d) (MemberKind.member d')

instance : MadeMember Constructor where
  base className _ := className
  made_of_concrete? h := by
    simp only [TemplatedMember.concrete?, Option.bind_eq_bind, Option.bind_eq_some_iff,
      Option.some.injEq] at h
    obtain ⟨args, hargs, rfl⟩ := h
    exact .ctor hargs

instance : MadeMember Method where
  base _ d := d.name
  made_of_concrete? h := by
    simp only [TemplatedMember.concrete?, Option.bind_eq_bind, Option.bind_eq_some_iff,
      Option.some.injEq] at h
    obtain ⟨result, hresult, args, hargs, rfl⟩ := h
    exact .method hresult hargs

instance : MadeMember StaticMethod where
  base _ d := d.name
  made_of_concrete? h := by
    simp only [TemplatedMember.concrete?, Option.bind_eq_bind, Option.bind_eq_some_iff,
      Option.some.injEq] at h
    obtain ⟨result, hresult, args, hargs, rfl⟩ := h
    exact .static hresult hargs

section Members

variable {x : ClassContext} {className : String}

/-- Nothing is bound without a header. -/
theorem ClassContext.bound_none (x : ClassContext) (bindings : List TypeExpr) :
    x.bound none bindings = x.substitution := by
  simp [bound, Substitution.extend, paramNames]

variable {μ : Type} [TemplatedMember μ] [MemberKind μ] [MadeMember μ]

open MemberKind

theorem instances_of_expandMember {d : μ} {ds : List μ}
    (h : (expandMember x (MadeMember.base className) d).outcome = .ok ds) :
    Member.Instances x className (member d) (ds.map member) := by
  rw [Member.Instances, template_member, List.forall₂_map_right_iff]
  unfold expandMember at h
  cases ht : TemplatedMember.template d with
  | none =>
    rw [ht] at h
    obtain ⟨d', hd', rfl⟩ := Expansion.outcome_wrap_ok h
    refine .cons (MadeMember.made_of_concrete? ?_) .nil
    rw [ht, ClassContext.bound_none, generatedName_nil]
    exact ok_of_resolved hd'
  | some t =>
    rw [ht] at h
    refine (Expansion.outcome_forEach_ok h).imp ?_
    intro bindings d' hd'
    obtain ⟨u, -, hd'⟩ := Expansion.outcome_bind_ok hd'
    apply MadeMember.made_of_concrete?
    rw [ht]
    exact ok_of_resolved hd'

theorem grouped_of_expandMembers (className : String) {ds ds' : List μ}
    (h : (expandMembers x (MadeMember.base className) ds).outcome = .ok ds') :
    Grouped (Member.Instances x className) (ds.map member) (ds'.map member) := by
  obtain ⟨groups, hgroups, rfl⟩ := Expansion.outcome_wrap_ok h
  exact (Expansion.grouped_of_forEach hgroups).map fun d ds' => instances_of_expandMember

end Members

section Plain

variable {x : ClassContext}

theorem made_of_special {d d' : SpecialMethod} (className : String)
    (h : SpecialMethod.concrete? x d = some d') :
    Member.Made x className [] (.special d) (.special d') := by
  simp only [SpecialMethod.concrete?, Option.bind_eq_bind, Option.bind_eq_some_iff,
    Option.some.injEq] at h
  obtain ⟨args, hargs, rfl⟩ := h
  exact .special hargs

theorem made_of_operator {d d' : OperatorMethod} (className : String)
    (h : OperatorMethod.concrete? x d = some d') :
    Member.Made x className [] (.operator d) (.operator d') := by
  simp only [OperatorMethod.concrete?, Option.bind_eq_bind, Option.bind_eq_some_iff,
    Option.some.injEq] at h
  obtain ⟨result, hresult, args, hargs, rfl⟩ := h
  exact .operator hresult hargs

theorem made_of_property {d d' : VariableDecl} (className : String)
    (h : VariableDecl.concrete? x d = some d') :
    Member.Made x className [] (.property d) (.property d') := by
  simp only [VariableDecl.concrete?, Option.bind_eq_bind, Option.bind_eq_some_iff,
    Option.some.injEq] at h
  obtain ⟨type, htype, rfl⟩ := h
  exact .property htype

/-- Members of a kind that cannot have a header. -/
theorem grouped_of_forall₂ {ν : Type} (member : ν → Member) {className : String}
    (htemplate : ∀ d, (member d).template = none) {ds ds' : List ν}
    (h : List.Forall₂ (fun d d' => Member.Made x className [] (member d) (member d')) ds ds') :
    Grouped (Member.Instances x className) (ds.map member) (ds'.map member) := by
  apply Grouped.of_forall₂ (S := fun m m' => m.template = none ∧ Member.Made x className [] m m')
  · rw [List.forall₂_map_left_iff, List.forall₂_map_right_iff]
    exact h.imp fun d d' hd => ⟨htemplate d, hd⟩
  · intro m m' hm
    rw [Member.Instances, hm.1]
    exact .cons hm.2 .nil

end Plain

/-! ## Classes -/

namespace ClassDecl

/-- The class `y` is the instance of `c` with `bindings` and maybe a new name. -/
structure Made (c : ClassDecl) (bindings : List TypeExpr) (newName : Option String)
    (y : ClassDecl) : Prop where
  arity : (paramNames c.template).length = bindings.length
  name : y.name = instanceName c.name bindings newName
  template : y.template = none
  namespaces : y.namespaces = c.namespaces
  span : y.span = c.span
  provenance : y.provenance = provenanceOf c.template c.name bindings
  parent : (c.bound bindings).substOption? c.parent = some y.parent
  ctors : Grouped (Member.Instances (c.frame bindings y.name) y.name) (c.ctors.map .ctor)
    (y.ctors.map .ctor)
  methods : Grouped (Member.Instances (c.frame bindings y.name) y.name) (c.methods.map .method)
    (y.methods.map .method)
  statics : Grouped (Member.Instances (c.frame bindings y.name) y.name) (c.statics.map .static)
    (y.statics.map .static)
  members : Grouped (Member.Instances (c.frame bindings y.name) y.name) c.members y.members

theorem made_of_expand {span : Span} {c y : ClassDecl} {bindings : List TypeExpr}
    {newName : Option String} (h : (c.expand span bindings newName).outcome = .ok y) :
    c.Made bindings newName y := by
  have hparts := expandsTo_of_expand h
  have h₁ := grouped_of_expandMembers y.name (μ := Constructor) hparts.ctors
  have h₂ := grouped_of_expandMembers y.name (μ := Method) hparts.methods
  have h₃ := grouped_of_expandMembers y.name (μ := StaticMethod) hparts.statics
  have h₄ := grouped_of_forall₂ .special (fun _ => rfl)
    (hparts.specials.imp fun _ _ => made_of_special y.name)
  have h₅ := grouped_of_forall₂ .operator (fun _ => rfl)
    (hparts.operators.imp fun _ _ => made_of_operator y.name)
  have h₆ := grouped_of_forall₂ .property (fun _ => rfl)
    (hparts.properties.imp fun _ _ => made_of_property y.name)
  have h₇ : Grouped (Member.Instances (c.frame bindings y.name) y.name)
      (c.enums.map .enumeration) (y.enums.map .enumeration) := by
    rw [hparts.enums]
    exact grouped_of_forall₂ .enumeration (fun _ => rfl)
      (List.forall₂_same.2 fun d _ => .enumeration d)
  exact {
    arity := hparts.arity
    name := hparts.name
    template := hparts.template
    namespaces := hparts.namespaces
    span := hparts.span
    provenance := hparts.provenance
    parent := hparts.parent
    ctors := h₁
    methods := h₂
    statics := h₃
    members := (((((h₁.append h₂).append h₃).append h₄).append h₅).append h₆).append h₇ }

end ClassDecl

/-! ## Declarations of an expanded file -/

/-- How a declaration of an expanded file is made. The instance of a typedef has a new name and at
least one binding. -/
inductive Declaration.Made : Declaration → Declaration → Prop
  | inclusion (d : IncludeDecl) : Made (.inclusion d) (.inclusion d)
  | enumeration (d : EnumDecl) : Made (.enumeration d) (.enumeration d)
  | space (name : String) (content inner : Content) (span : Span) :
      Made (.space name content span) (.space name inner span)
  | cls {c y : ClassDecl} {bindings : List TypeExpr} {newName : Option String}
      (hnew : newName = none ∨ bindings ≠ []) (h : c.Made bindings newName y) :
      Made (.cls c) (.cls y)
  | function {d y : FunctionDecl} {bindings : List TypeExpr} {newName : Option String}
      (hnew : newName = none ∨ bindings ≠ []) (h : d.instantiate bindings newName = .ok y) :
      Made (.function d) (.function y)
  | var {d y : VariableDecl} {bindings : List TypeExpr} (h : d.instantiate bindings none = .ok y) :
      Made (.var d) (.var y)
  | plainForward {d : ForwardDecl} (h : d.template = none) : Made (.forward d) (.forward d)
  | forward {d y : ForwardDecl} {bindings : List TypeExpr} {newName : Option String}
      (h : d.instantiate bindings newName = .ok y) : Made (.forward d) (.forward y)

/-- What the instances in the place of a declaration are made from: the target of a typedef, and
otherwise the declaration itself. -/
def Declaration.IsSource (content : Content) : Declaration → Declaration → Prop
  | .typedef d, g =>
    ∃ t, (TypedefIndex.ofContent content).target d = .ok t ∧ Target.ofDeclaration? g = some t
  | d, g => g = d

/-- The declarations of an expanded file in groups. -/
theorem Blocks.grouped {index : TypedefIndex} {ds out : Content} (h : Blocks index ds out) :
    Grouped (Block index) ds out := by
  induction ds generalizing out with
  | nil =>
    cases h
    exact .nil
  | cons d ds ih =>
    cases h with
    | cons hd hds => exact .cons hd (ih hds)

/-- No instance is a namespace. -/
theorem Target.instantiate_ne_space {t : Target} {bindings : List TypeExpr} {newName name : String}
    {inner : Content} {span : Span} :
    t.instantiate bindings newName ≠ .ok (.space name inner span) := by
  intro h
  cases t with
  | cls d =>
    obtain ⟨y, -, hy⟩ := except_map_ok h
    cases hy
  | function d =>
    obtain ⟨y, -, hy⟩ := except_map_ok h
    cases hy
  | forward d =>
    obtain ⟨y, -, hy⟩ := except_map_ok h
    cases hy

/-- Only namespaces become namespaces. -/
theorem Block.of_space_mem {index : TypedefIndex} {d : Declaration} {block inner : Content}
    {name : String} {span : Span} (h : Block index d block)
    (hx : .space name inner span ∈ block) :
    ∃ content, d = .space name content span ∧ Blocks index content inner := by
  cases h with
  | space h =>
    cases List.mem_singleton.1 hx
    exact ⟨_, rfl, h⟩
  | typedef _ h =>
    rw [← List.mem_singleton.1 hx] at h
    exact absurd h Target.instantiate_ne_space
  | _ => simp at hx

/-- At each depth, the declarations of an expanded file stand in the blocks of declarations at that
depth. -/
theorem Blocks.exists_block {index : TypedefIndex} {ds out : Content} {path : List String}
    {x : Declaration} (h : Blocks index ds out) (hx : out.Has path x) :
    ∃ d block, ds.Has path d ∧ Block index d block ∧ x ∈ block := by
  induction hx generalizing ds with
  | here hx =>
    obtain ⟨d, hd, block, hblock, hx⟩ := h.grouped.exists_of_mem hx
    exact ⟨d, block, .here hd, hblock, hx⟩
  | inside hs _ ih =>
    obtain ⟨d, hd, block, hblock, hs⟩ := h.grouped.exists_of_mem hs
    obtain ⟨content, rfl, hcontent⟩ := hblock.of_space_mem hs
    obtain ⟨d', block', hd', hblock', hx⟩ := ih hcontent
    exact ⟨d', block', .inside hd hd', hblock', hx⟩

/-- Each instance that a header lists has bindings that it lists. -/
theorem Listed.exists_of_mem {α : Type} {make : List TypeExpr → Except ExpansionError α}
    {template : Option Template} {xs : List α} (h : Listed make template xs) {x : α}
    (hx : x ∈ xs) : ∃ bindings ∈ combinationsOf template, make bindings = .ok x :=
  exists_mem_of_forall₂ h.forall₂.flip hx

/-! ## Requests -/

/-- How instances of a declaration with the header given are asked for: with types that the header
lists, or by a typedef, which can be written and gives the instance a name. -/
inductive Requested (template : Option Template) : List TypeExpr → Option String → Prop
  | listed {bindings : List TypeExpr} (h : bindings ∈ combinationsOf template) :
      Requested template bindings none
  | named {bindings : List TypeExpr} {newName : String} (hne : bindings ≠ [])
      (hwf : ∀ b ∈ bindings, b.WellFormed true) (hn : isIdentifier newName = true) :
      Requested template bindings (some newName)

namespace Requested

variable {template : Option Template} {bindings : List TypeExpr} {newName : Option String}

/-- A new name comes with types. -/
theorem new (h : Requested template bindings newName) : newName = none ∨ bindings ≠ [] := by
  cases h with
  | listed => exact .inl rfl
  | named hne => exact .inr hne

/-- What is bound can be written. -/
theorem wellFormed (h : Requested template bindings newName)
    (ht : ∀ t ∈ template, t.WellFormed) : ∀ b ∈ bindings, b.WellFormed true := by
  cases h with
  | listed h => exact Template.WellFormed.combinations ht bindings h
  | named _ hwf => exact hwf

end Requested

/-- A typedef asks for an instance of its target. -/
theorem Declaration.WellFormed.requested {scope : List String} {d : TypedefDecl}
    (h : Declaration.WellFormed scope (.typedef d)) (template : Option Template) :
    Requested template d.target.args (some d.newName) := by
  have hne := h.typedef_args
  cases h with
  | typedef htype _ _ hn => exact .named hne htype.args hn

/-- What a declaration issues: the instances that it is asked for, or itself if it is not expanded,
where the content of a namespace may be. -/
inductive Declaration.Issues : Declaration → Declaration → Prop
  | inclusion (d : IncludeDecl) : Issues (.inclusion d) (.inclusion d)
  | enumeration (d : EnumDecl) : Issues (.enumeration d) (.enumeration d)
  | space (name : String) (content inner : Content) (span : Span) :
      Issues (.space name content span) (.space name inner span)
  | cls {c y : ClassDecl} {bindings : List TypeExpr} {newName : Option String}
      (hr : Requested c.template bindings newName) (h : c.instantiate bindings newName = .ok y) :
      Issues (.cls c) (.cls y)
  | function {d y : FunctionDecl} {bindings : List TypeExpr} {newName : Option String}
      (hr : Requested d.template bindings newName) (h : d.instantiate bindings newName = .ok y) :
      Issues (.function d) (.function y)
  | var {d y : VariableDecl} {bindings : List TypeExpr}
      (hr : Requested d.template bindings none) (h : d.instantiate bindings none = .ok y) :
      Issues (.var d) (.var y)
  | plainForward {d : ForwardDecl} (h : d.template = none) : Issues (.forward d) (.forward d)
  | forward {d y : ForwardDecl} {bindings : List TypeExpr} {newName : Option String}
      (hr : Requested d.template bindings newName) (h : d.instantiate bindings newName = .ok y) :
      Issues (.forward d) (.forward y)

theorem Declaration.Issues.made {g x : Declaration} (h : g.Issues x) : g.Made x := by
  cases h with
  | inclusion d => exact .inclusion d
  | enumeration d => exact .enumeration d
  | space name content inner span => exact .space name content inner span
  | cls hr h => exact .cls hr.new (ClassDecl.made_of_expand h)
  | function hr h => exact .function hr.new h
  | var _ h => exact .var h
  | plainForward h => exact .plainForward h
  | forward _ h => exact .forward h

/-- What stands in the block of a declaration of the file is issued by its source. -/
theorem issues_of_block {content : Content} {path ns : List String} {d x : Declaration}
    {block : Content} (hhas : content.Has path d) (hwf : d.WellFormed ns)
    (h : Block (.ofContent content) d block) (hx : x ∈ block) :
    ∃ path' g, content.Has path' g ∧ d.IsSource content g ∧ g.Issues x := by
  cases h with
  | inclusion d =>
    rw [List.mem_singleton.1 hx]
    exact ⟨path, _, hhas, rfl, .inclusion d⟩
  | enumeration d =>
    rw [List.mem_singleton.1 hx]
    exact ⟨path, _, hhas, rfl, .enumeration d⟩
  | space h =>
    rw [List.mem_singleton.1 hx]
    exact ⟨path, _, hhas, rfl, .space _ _ _ _⟩
  | cls h =>
    obtain ⟨y, hy, rfl⟩ := List.mem_map.1 hx
    obtain ⟨bindings, hb, hmake⟩ := h.exists_of_mem hy
    exact ⟨path, _, hhas, rfl, .cls (.listed hb) hmake⟩
  | function h =>
    obtain ⟨y, hy, rfl⟩ := List.mem_map.1 hx
    obtain ⟨bindings, hb, hmake⟩ := h.exists_of_mem hy
    exact ⟨path, _, hhas, rfl, .function (.listed hb) hmake⟩
  | var h =>
    obtain ⟨y, hy, rfl⟩ := List.mem_map.1 hx
    obtain ⟨bindings, hb, hmake⟩ := h.exists_of_mem hy
    exact ⟨path, _, hhas, rfl, .var (.listed hb) hmake⟩
  | plainForward h =>
    rw [List.mem_singleton.1 hx]
    exact ⟨path, _, hhas, rfl, .plainForward h⟩
  | forward ht h =>
    obtain ⟨y, hy, rfl⟩ := List.mem_map.1 hx
    obtain ⟨bindings, hb, hmake⟩ := h.exists_of_mem hy
    exact ⟨path, _, hhas, rfl, .forward (.listed (ht ▸ hb)) hmake⟩
  | @typedef d target x' ht h =>
    rw [List.mem_singleton.1 hx]
    have htarget := TypedefIndex.target_of_resolve ht
    obtain ⟨path', g, hg, hof⟩ := TypedefIndex.has_of_target htarget
    refine ⟨path', g, hg, ⟨target, htarget, hof⟩, ?_⟩
    cases g <;> cases hof
    · obtain ⟨y, hy, rfl⟩ := except_map_ok h
      exact .cls (hwf.requested _) hy
    · obtain ⟨y, hy, rfl⟩ := except_map_ok h
      exact .forward (hwf.requested _) hy
    · obtain ⟨y, hy, rfl⟩ := except_map_ok h
      exact .function (hwf.requested _) hy

/-- What stands in the block of a declaration of the file is made from its source. -/
theorem made_of_block {content : Content} {path ns : List String} {d x : Declaration}
    {block : Content} (hhas : content.Has path d) (hwf : d.WellFormed ns)
    (h : Block (.ofContent content) d block) (hx : x ∈ block) :
    ∃ path' g, content.Has path' g ∧ d.IsSource content g ∧ g.Made x := by
  obtain ⟨path', g, hg, hsource, hissues⟩ := issues_of_block hhas hwf h hx
  exact ⟨path', g, hg, hsource, hissues.made⟩

/-- All that stands in the expansion of a file is issued by a declaration of the file, which can be
written where it stands. -/
theorem Interface.exists_issues {source : String} {m out : Interface} {policy : CollisionPolicy}
    (h : parse source = .ok m) (hout : m.instantiate policy = .ok out) {path : List String}
    {x : Declaration} (hx : out.content.Has path x) :
    ∃ place g, m.content.Has place g ∧ g.WellFormed place ∧ g.Issues x := by
  have hwf := wellFormed_of_parse h
  obtain ⟨d, block, hd, hblock, hmem⟩ := (blocks_of_instantiate policy m out hout).exists_block hx
  obtain ⟨place, g, hg, -, hissues⟩ := issues_of_block hd (hd.wellFormed hwf) hblock hmem
  exact ⟨place, g, hg, hg.wellFormed hwf, hissues⟩

end TemplateIdl
