import TemplateIdl.Proofs.Expand.Made
import TemplateIdl.Proofs.Expand.Policy
import TemplateIdl.Proofs.Expand.Product
import TemplateIdl.Proofs.Token.Literal

/-!
# Copy — what an instance of a class has in common with the class

An instance of a class is a copy of it in which the types are other ones. The names, the owners and
the records of what it was made from follow from the bindings, and a member with a header of its own
is copied once for each choice of types.

* `ClassDecl.arity` and `ClassDecl.instantiate_iff_arity`, with the right number of types there is
  always an instance, and nothing else can be wrong;
* `Member.outline`, a member without types, and without all that follows from the bindings;
* `Member.Copies`, copies of a member, one for each choice that its header lists;
* `ClassDecl.IsCopy` and `ClassDecl.isCopy_of_instantiate`, every instance is such a copy.
-/

namespace TemplateIdl

/-! ## The number of types -/

/-- Number of parameters of a class; none without a header. -/
def ClassDecl.arity (c : ClassDecl) : Nat :=
  match c.template with
  | some t => t.arity
  | none => 0

theorem ClassDecl.length_paramNames (c : ClassDecl) : (paramNames c.template).length = c.arity := by
  unfold arity
  cases c.template with
  | none => rfl
  | some t => exact List.length_map _

/-- Names are only refused where collisions are errors. -/
theorem Expansion.settle_of_ne {α : Type} {policy : CollisionPolicy} (h : policy ≠ .error)
    (x : Expansion α) : x.settle policy = x.outcome := by
  rw [settle_eq_run]
  exact run_lenient h x

namespace ClassDecl

variable {c y : ClassDecl} {bindings : List TypeExpr} {newName : Option String}

/-- A wrong number of types is found before anything else. -/
theorem expand_of_ne (h : bindings.length ≠ c.arity) (span : Span) :
    (c.expand span bindings newName).outcome =
      .error ⟨.arityMismatch c.name c.arity bindings.length, span⟩ := by
  have hne : (paramNames c.template).length ≠ bindings.length := by
    rw [length_paramNames]
    exact h.symm
  have hbind : Substitution.bind c.name (paramNames c.template) bindings span =
      .error ⟨.arityMismatch c.name c.arity bindings.length, span⟩ := by
    rw [Substitution.bind, if_neg hne, length_paramNames]
  unfold expand
  rw [Expansion.outcome_bind, Expansion.outcome_lift, hbind]
  rfl

/-- **Only the number of types can be wrong.** Whatever stands in a class, it has an instance
exactly for the lists with a type for each of its parameters. For any other list the error tells how
many types there should be, and stands where the class stands. The names of the members are never
refused, since collisions are ignored. -/
theorem instantiate_iff_arity (c : ClassDecl) (bindings : List TypeExpr)
    (newName : Option String) :
    ((∃ y, c.instantiate bindings newName = .ok y) ↔ bindings.length = c.arity) ∧
      (∀ e, c.instantiate bindings newName = .error e ↔ bindings.length ≠ c.arity ∧
        e = ⟨.arityMismatch c.name c.arity bindings.length, c.span⟩) ∧
      (c.expand c.span bindings newName).settle .ignore = c.instantiate bindings newName := by
  refine ⟨?_, ?_, Expansion.settle_of_ne (by decide) _⟩
  · constructor
    · intro h
      obtain ⟨y, hy⟩ := h
      rw [← length_paramNames, (expandsTo_of_expand hy).arity]
    · intro h
      obtain ⟨y, hy, -⟩ := exists_expand (c.length_paramNames.trans h.symm) c.span newName
      exact ⟨y, hy⟩
  · intro e
    by_cases h : bindings.length = c.arity
    · obtain ⟨y, hy, -⟩ := exists_expand (c.length_paramNames.trans h.symm) c.span newName
      rw [instantiate, hy]
      simp [h]
    · rw [instantiate, expand_of_ne h]
      simp [h, eq_comm]

end ClassDecl

/-! ## Outlines -/

/-- An argument without its type. -/
def Argument.outline (a : Argument) : Argument := { a with type := default }

/-- A result without its types. -/
def ReturnType.outline : ReturnType → ReturnType
  | single _ => single default
  | pair _ _ => pair default default

namespace Member

/-- A member without its types and its owner. Constructors and methods are without their names,
headers and records, too. -/
def outline : Member → Member
  | .ctor d =>
    .ctor { d with
      name := ""
      args := d.args.map Argument.outline
      owner := default
      template := none
      provenance := none }
  | .method d =>
    .method { d with
      name := ""
      result := d.result.outline
      args := d.args.map Argument.outline
      owner := default
      template := none
      provenance := none }
  | .static d =>
    .static { d with
      name := ""
      result := d.result.outline
      args := d.args.map Argument.outline
      owner := default
      template := none
      provenance := none }
  | .special d => .special { d with args := d.args.map Argument.outline, owner := default }
  | .operator d =>
    .operator { d with
      result := d.result.outline
      args := d.args.map Argument.outline
      owner := default }
  | .property d => .property { d with type := default, owner := none }
  | .enumeration d => .enumeration d

/-- What the names of instances of a member begin with. Constructors are named like the class. -/
def base (className : String) : Member → String
  | .ctor _ => className
  | .method d => d.name
  | .static d => d.name
  | .special d => d.name
  | .operator d => d.name
  | .property d => d.name
  | .enumeration d => d.name

/-- The member `m` is the copy of `g` for one choice of types. Its name ends with those of the
types, and it records them if there is a header that lists them. -/
structure IsCopy (className : String) (g : Member) (types : List TypeExpr) (m : Member) : Prop where
  outline : m.outline = g.outline
  name : m.name = g.base className ++ String.join (types.map fun t => capitalized t.name)
  template : m.template = none
  provenance : m.provenance = g.template.map fun _ => ⟨g.name, types⟩

/-- The members are the copies of `g`, one for each choice that its header lists, in the order of
the choices. Without a header there is one copy. -/
structure Copies (className : String) (g : Member) (ms : List Member) : Prop where
  length : ms.length =
    match g.template with
    | some t => (t.choices.map List.length).prod
    | none => 1
  each : List.Forall₂ (g.IsCopy className) (combinationsOf g.template) ms

end Member

namespace Substitution

variable {σ : Substitution}

theorem outline_arguments {args args' : List Argument} (h : σ.substArguments? args = some args') :
    args'.map Argument.outline = args.map Argument.outline := by
  induction args generalizing args' with
  | nil =>
    cases h
    rfl
  | cons a args ih =>
    simp only [substArguments?, Option.bind_eq_bind, Option.bind_eq_some_iff,
      Option.some.injEq] at h
    obtain ⟨type, -, args', hargs, rfl⟩ := h
    rw [List.map_cons, List.map_cons, ih hargs]
    rfl

theorem outline_return {r r' : ReturnType} (h : σ.substReturn? r = some r') :
    r'.outline = r.outline := by
  cases r with
  | single t =>
    simp only [substReturn?, Option.bind_eq_bind, Option.bind_eq_some_iff, Option.some.injEq] at h
    obtain ⟨t', -, rfl⟩ := h
    rfl
  | pair s t =>
    simp only [substReturn?, Option.bind_eq_bind, Option.bind_eq_some_iff, Option.some.injEq] at h
    obtain ⟨s', -, t', -, rfl⟩ := h
    rfl

theorem isSome_option {o o' : Option TypeExpr} (h : σ.substOption? o = some o') :
    o'.isSome = o.isSome := by
  cases o with
  | none =>
    cases h
    rfl
  | some t =>
    simp only [substOption?, Option.bind_eq_bind, Option.bind_eq_some_iff, Option.some.injEq] at h
    obtain ⟨t', -, rfl⟩ := h
    rfl

end Substitution

namespace Member

variable {x : ClassContext} {className : String} {bindings : List TypeExpr} {g m : Member}

/-- Members of an instance have the outlines of those that they are made from. -/
theorem Made.outline (h : Made x className bindings g m) : m.outline = g.outline := by
  cases h with
  | ctor hargs => simp only [Member.outline, Substitution.outline_arguments hargs]
  | method hresult hargs =>
    simp only [Member.outline, Substitution.outline_return hresult,
      Substitution.outline_arguments hargs]
  | static hresult hargs =>
    simp only [Member.outline, Substitution.outline_return hresult,
      Substitution.outline_arguments hargs]
  | special hargs => simp only [Member.outline, Substitution.outline_arguments hargs]
  | operator hresult hargs =>
    simp only [Member.outline, Substitution.outline_return hresult,
      Substitution.outline_arguments hargs]
  | property _ => rfl
  | enumeration d => rfl

/-- Where a header lists the bindings, members of an instance are copies. Without a header there are
no bindings. -/
theorem Made.isCopy (h : Made x className bindings g m)
    (hb : bindings ∈ combinationsOf g.template) : g.IsCopy className bindings m := by
  refine ⟨h.outline, ?_, ?_, h.provenance⟩
  · cases h with
    | ctor => rfl
    | method => rfl
    | static => rfl
    | _ =>
      rw [List.mem_singleton.1 hb]
      exact String.append_empty.symm
  · exact h.template

end Member

theorem Member.Instances.copies {x : ClassContext} {className : String} {g : Member}
    {ms : List Member} (h : g.Instances x className ms) : g.Copies className ms := by
  constructor
  · rw [← h.length_eq]
    cases g.template with
    | none => rfl
    | some t => exact length_product t.choices
  · have hlisted := (List.forall₂_and_left (p := (· ∈ combinationsOf g.template)) _ _).2
      ⟨fun _ hb => hb, h⟩
    exact hlisted.imp fun _ _ hm => hm.2.isCopy hm.1

/-! ## Classes -/

namespace ClassDecl

variable {c y : ClassDecl} {bindings : List TypeExpr} {newName : Option String}

/-- The class `y` is a copy of `c` in which nothing but types, names, owners, headers and records
differ. -/
structure IsCopy (c y : ClassDecl) : Prop where
  isVirtual : y.isVirtual = c.isVirtual
  namespaces : y.namespaces = c.namespaces
  span : y.span = c.span
  enums : y.enums = c.enums
  parent : y.parent.isSome = c.parent.isSome
  operators : y.operators.map (fun d => (Member.operator d).outline) =
    c.operators.map fun d => (Member.operator d).outline
  properties : y.properties.map (fun d => (Member.property d).outline) =
    c.properties.map fun d => (Member.property d).outline
  specials : y.specials.map (fun d => (Member.special d).outline) =
    c.specials.map fun d => (Member.special d).outline
  ctors : Grouped (Member.Copies y.name) (c.ctors.map .ctor) (y.ctors.map .ctor)
  methods : Grouped (Member.Copies y.name) (c.methods.map .method) (y.methods.map .method)
  statics : Grouped (Member.Copies y.name) (c.statics.map .static) (y.statics.map .static)

/-- Members without a header keep their outlines in order. -/
theorem outlines_eq {ν : Type} {member : ν → Member} {x : ClassContext} {className : String}
    {ds ds' : List ν}
    (h : List.Forall₂ (fun d d' => Member.Made x className [] (member d) (member d')) ds ds') :
    ds'.map (fun d => (member d).outline) = ds.map fun d => (member d).outline :=
  map_eq_map_of_forall₂ (h.flip.imp fun _ _ hd => hd.outline)

/-- **An instance is a copy of its class.** It keeps all but types, names, owners, headers and
records. Operators, properties and special methods are copied one by one. A constructor, a method or
a static method is copied once for each choice of types that its header lists, and its copies are
named for the types and record them. -/
theorem isCopy_of_instantiate (h : c.instantiate bindings newName = .ok y) : c.IsCopy y := by
  have hparts := expandsTo_of_expand h
  have hmade := made_of_expand h
  exact {
    isVirtual := hparts.isVirtual
    namespaces := hparts.namespaces
    span := hparts.span
    enums := hparts.enums
    parent := Substitution.isSome_option hparts.parent
    operators := outlines_eq (hparts.operators.imp fun _ _ => made_of_operator y.name)
    properties := outlines_eq (hparts.properties.imp fun _ _ => made_of_property y.name)
    specials := outlines_eq (hparts.specials.imp fun _ _ => made_of_special y.name)
    ctors := hmade.ctors.imp fun _ _ hg => hg.copies
    methods := hmade.methods.imp fun _ _ hg => hg.copies
    statics := hmade.statics.imp fun _ _ hg => hg.copies }

/-- A class with members of all kinds. Nothing is listed for the parameter of its method. -/
def casket : String :=
  "template<T> virtual class Casket : Box<T> \x7b "
    ++ "template<U = \x7bT, bool\x7d, V = \x7bdouble, char\x7d> Casket(U key, V depth = 1); "
    ++ "template<W> void fill(W w); static pair<T, int> make(); T operator+(const T& t) const; "
    ++ "__len__(); T item = 0; enum Kind \x7b Open, Shut \x7d; \x7d;"

/-- The instance of the class with `int` has four constructors for the one of the class, and no
method. -/
theorem casket_isCopy : ∃ (m : Interface) (c y : ClassDecl), Interface.parse casket = .ok m ∧
    m.content.classes = [c] ∧ c.instantiate [.named "int"] none = .ok y ∧
    y.ctors.map Constructor.name =
      ["CasketIntTDouble", "CasketIntTChar", "CasketIntBoolDouble", "CasketIntBoolChar"] ∧
    y.methods = [] ∧ y.properties.length = 1 ∧ c.IsCopy y := by
  have hrun : ((Interface.parse casket).toOption.any fun m => m.content.classes.any fun c =>
      (c.instantiate [.named "int"] none).toOption.any fun y => decide (m.content.classes = [c] ∧
        y.ctors.map Constructor.name =
          ["CasketIntTDouble", "CasketIntTChar", "CasketIntBoolDouble", "CasketIntBoolChar"] ∧
        y.methods = [] ∧ y.properties.length = 1)) = true := by
    have hchars : casket = String.ofList _ :=
      append_eq_ofList (append_eq_ofList (append_eq_ofList rfl rfl) rfl) rfl
    rw [hchars, Interface.parse, parseWith, Lexed.ofSource_ofList]
    decide +kernel
  simp only [Option.any_eq_true, List.any_eq_true, decide_eq_true_eq] at hrun
  obtain ⟨m, hm, c, -, y, hy, hc, hctors, hmethods, hproperties⟩ := hrun
  have hinstance := except_ok_of_toOption hy
  exact ⟨m, c, y, except_ok_of_toOption hm, hc, hinstance, hctors, hmethods, hproperties,
    isCopy_of_instantiate hinstance⟩

end ClassDecl

end TemplateIdl
