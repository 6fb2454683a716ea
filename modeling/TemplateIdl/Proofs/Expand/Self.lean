import TemplateIdl.Proofs.Expand.Again
import TemplateIdl.Proofs.Token.Literal

/-!
# Self — the type of a class inside its instances

What stands for a class inside one of its instances is computed in four places: the owner of the
members from the class and the bindings, the C++ type from the record of the instance, `This` by
substitution, and so is the name of the class with its own parameters. All of them are one type.

* `Substitution.subst?_this`, `Substitution.subst?_named` and `Substitution.subst?_applied`, what
  becomes of `This`, of a parameter and of a name with arguments;
* `Substitution.forall₂_subst?_named`, parameters with different names become what is bound to them;
* `Member.BelongsTo`, a member of the class that a type names;
* `ClassDecl.cppType_of_instantiate` and `ClassDecl.Made.belongsTo`, the C++ type of an instance and
  the type that its members belong to are the generic class with the bindings;
* `ClassDecl.selfType_of_instantiate`, so is everything else that stands for the class.
-/

namespace TemplateIdl

namespace Substitution

variable {σ : Substitution} {cls : Typename}

/-! ## Names that are replaced -/

/-- Where no name is bound twice, each parameter is found. -/
theorem get?_of_mem (hnodup : σ.names.Nodup) {name : String} {bound : TypeExpr}
    (h : (name, bound) ∈ σ.params) : σ.get? name = some bound := by
  cases hget : σ.get? name with
  | none => exact absurd (List.mem_map_of_mem h) (get?_eq_none.1 hget)
  | some found =>
    have hpair := List.inj_on_of_nodup_map hnodup (mem_of_get?_eq_some hget) h rfl
    rw [(Prod.mk.inj hpair).2]

/-- Where no parameter is called `This`, it is the class. -/
theorem subst?_this (hp : thisName ∉ σ.names) (hthis : σ.this = some cls) (isConst : Bool)
    (sign : Option Indirection) (isBasic : Bool) :
    σ.subst? (.ofParts (.simple thisName) isConst sign isBasic) =
      some (.ofParts cls isConst sign false) := by
  refine subst?_eq_some.2 ⟨[], .nil, ?_⟩
  rw [replace?_of_this rfl rfl rfl (get?_eq_none.2 hp), hthis]
  rfl

/-- A parameter without qualifiers is the type that is bound to it, if that has none either. -/
theorem subst?_named {name : String} {bound : TypeExpr} (h : σ.get? name = some bound)
    (hplain : bound.isConst = false ∧ bound.indirection = none) :
    σ.subst? (.named name) = some bound := by
  refine subst?_eq_some.2 ⟨[], .nil, ?_⟩
  rw [replace?_of_param rfl rfl h]
  obtain ⟨ns, n, args, c, i, b⟩ := bound
  obtain ⟨rfl, rfl⟩ := hplain
  rfl

/-- In a name with arguments that stands for nothing itself, only these are replaced. -/
theorem subst?_applied {path : List String} {name : String} {args args' : List TypeExpr}
    (hempty : "" ∉ path) (hp : ∀ s ∈ path, s ∉ σ.names ∧ s ≠ thisName) (hne : args ≠ [])
    (hargs : List.Forall₂ (fun a a' => σ.subst? a = some a') args args') (isConst : Bool)
    (sign : Option Indirection) :
    σ.subst? (.ofTypename (.ofPath path name args) isConst sign) =
      some (.ofParts (.ofPath path name args') isConst sign false) := by
  rw [Typename.ofPath_of_not_mem hempty]
  refine subst?_eq_some.2 ⟨args', hargs, ?_⟩
  rw [replace?_of_plain]
  · -- a name with arguments is not that of a built-in type
    have hbasic : Typename.isBasic ⟨path, name, args⟩ = false := by simp [Typename.isBasic, hne]
    exact congrArg (fun b => some (TypeExpr.ofParts _ isConst sign b)) hbasic
  · exact scoped?_eq_none.2 fun s hs => (hp s hs).1
  · exact fun _ hnil => absurd hnil hne
  · exact fun h => hne h.2.1
  · exact fun hs => (hp _ hs).2 rfl

/-- Parameters with different names, each with a type without qualifiers, become these types. -/
theorem forall₂_subst?_named {names : List String} {types : List TypeExpr}
    (hl : names.length = types.length) (hnodup : names.Nodup)
    (hplain : ∀ b ∈ types, b.isConst = false ∧ b.indirection = none)
    (hσ : σ.params = names.zip types) :
    List.Forall₂ (fun a a' => σ.subst? a = some a') (names.map .named) types := by
  have hnames : σ.names = names := by
    rw [Substitution.names, hσ, List.map_fst_zip hl.le]
  rw [List.forall₂_map_left_iff, List.forall₂_iff_zip]
  refine ⟨hl, ?_⟩
  intro name bound hmem
  apply subst?_named
  · exact get?_of_mem (hnames ▸ hnodup) (hσ ▸ hmem)
  · exact hplain bound (List.of_mem_zip hmem).2

end Substitution

/-! ## Instances -/

/-- The member belongs to the class that the type names. Enumerations do not know their class. -/
def Member.BelongsTo (cls : Typename) : Member → Prop
  | .ctor d => d.owner = cls
  | .method d => d.owner = cls
  | .static d => d.owner = cls
  | .special d => d.owner = cls
  | .operator d => d.owner = cls
  | .property d => d.owner = some cls
  | .enumeration _ => True

theorem Member.Made.belongsTo {x : ClassContext} {className : String} {bindings : List TypeExpr}
    {g m : Member} (h : Made x className bindings g m) : m.BelongsTo x.owner := by
  cases h with
  | enumeration d => trivial
  | _ => rfl

namespace ClassDecl

variable {c y : ClassDecl} {bindings : List TypeExpr} {newName : Option String}
  {path : List String}

/-- A class with a header has parameters, so it has no instance without types. -/
theorem WellFormed.bindings_ne_nil (hc : c.WellFormed path) (ht : c.template.isSome = true)
    (hlength : (paramNames c.template).length = bindings.length) : bindings ≠ [] := by
  obtain ⟨t, ht⟩ := Option.isSome_iff_exists.1 ht
  rintro rfl
  rw [ht, paramNames, Template.names, List.length_map] at hlength
  exact (hc.template t ht).ne_nil (List.eq_nil_of_length_eq_zero hlength)

namespace Made

/-- The members of an instance belong to the generic class with the bindings. -/
theorem belongsTo (h : c.Made bindings newName y) :
    ∀ m ∈ y.members, m.BelongsTo (.ofPath c.namespaces c.name bindings) := by
  intro m hm
  obtain ⟨g, -, own, -, hmade⟩ := h.exists_member hm
  exact hmade.belongsTo

/-- No instance is generic, so it is known by its C++ type. -/
theorem selfType_eq_cppType (h : c.Made bindings newName y) : y.selfType = y.cppType := by
  unfold selfType
  rw [h.template]
  cases y.provenance <;> rfl

end Made

/-- The generic class with the bindings is the C++ type of the instance, provided that a class
without a header keeps its name. -/
theorem cppType_of_instantiate (h : c.instantiate bindings newName = .ok y)
    (hnew : newName = none ∨ bindings ≠ []) :
    y.cppType = .ofPath c.namespaces c.name bindings := by
  obtain ⟨hgeneric, hbindings⟩ := generic_of_expand h hnew
  rw [cppType_eq, hgeneric, hbindings, (expandsTo_of_expand h).namespaces]

/-- The names that an instance of a class replaces are its parameters. -/
theorem names_bound (hlength : (paramNames c.template).length = bindings.length) :
    (c.bound bindings).names = paramNames c.template :=
  List.map_fst_zip hlength.le

/-- In an instance, the name of the class with its own parameters as arguments is the generic class
with the bindings. -/
theorem WellFormed.subst?_selfType (hc : c.WellFormed path) (hempty : "" ∉ path) {t : Template}
    (ht : c.template = some t) (hlength : (paramNames c.template).length = bindings.length)
    (hnodup : t.names.Nodup) (hspaces : ∀ s ∈ c.namespaces, s ∉ t.names ∧ s ≠ thisName)
    (hplain : ∀ b ∈ bindings, b.isConst = false ∧ b.indirection = none) (isConst : Bool)
    (sign : Option Indirection) :
    (c.bound bindings).subst? (.ofTypename c.selfType isConst sign) =
      some (.ofParts (.ofPath c.namespaces c.name bindings) isConst sign false) := by
  have hself : c.selfType = .ofPath c.namespaces c.name (t.names.map TypeExpr.named) := by
    rw [selfType, hc.scoped.provenance, ht]
  have hparams : paramNames c.template = t.names := by rw [ht, paramNames]
  rw [hself]
  apply Substitution.subst?_applied
  · rw [hc.namespaces_eq]
    exact hempty
  · rw [names_bound hlength, hparams]
    exact hspaces
  · intro hnil
    rw [Template.names, List.map_map, List.map_eq_nil_iff] at hnil
    exact (hc.template t ht).ne_nil hnil
  · rw [← hparams] at hnodup ⊢
    exact Substitution.forall₂_subst?_named hlength hnodup hplain rfl

/-- **A class is one type inside its instances.** If a class of a file has a header or keeps its
name, then all members of an instance belong to its C++ type, and `This` becomes that type unless a
parameter has that name. So does the name of the class with its own parameters, where these have
different names, stand for nothing else in the path of the class, and are bound to types without
qualifiers. -/
theorem selfType_of_instantiate {source : String} {m : Interface}
    (hm : Interface.parse source = .ok m) (hc : m.content.Has path (.cls c))
    (hnew : c.template.isSome = true ∨ newName = none)
    (h : c.instantiate bindings newName = .ok y) :
    y.selfType = y.cppType ∧ (∀ m ∈ y.members, m.BelongsTo y.cppType) ∧
      (thisName ∉ paramNames c.template → ∀ isConst sign isBasic,
        (c.bound bindings).subst? (.ofParts (.simple thisName) isConst sign isBasic) =
          some (.ofParts y.cppType isConst sign false)) ∧
      ∀ t ∈ c.template, t.names.Nodup → thisName ∉ t.names →
        (∀ s ∈ c.namespaces, s ∉ t.names ∧ s ≠ thisName) →
        (∀ b ∈ bindings, b.isConst = false ∧ b.indirection = none) → ∀ isConst sign,
          (c.bound bindings).subst? (.ofTypename c.selfType isConst sign) =
            (c.bound bindings).subst? (.ofTypename (.simple thisName) isConst sign) := by
  have hfile := Interface.wellFormed_of_parse hm
  have hempty : "" ∉ path := hc.names hfile
  have hwf : c.WellFormed path := by
    cases hc.wellFormed hfile with
    | cls hwf => exact hwf
  have hmade := made_of_expand h
  have hkept : newName = none ∨ bindings ≠ [] :=
    hnew.symm.imp_right fun ht => hwf.bindings_ne_nil ht hmade.arity
  have hcpp := cppType_of_instantiate h hkept
  have hthis : thisName ∉ paramNames c.template → ∀ isConst sign isBasic,
      (c.bound bindings).subst? (.ofParts (.simple thisName) isConst sign isBasic) =
        some (.ofParts y.cppType isConst sign false) := by
    intro hp
    apply Substitution.subst?_this
    · rw [names_bound hmade.arity]
      exact hp
    · rw [hcpp]
      rfl
  refine ⟨hmade.selfType_eq_cppType, hcpp ▸ hmade.belongsTo, hthis, ?_⟩
  intro t ht hnodup hp hspaces hplain isConst sign
  have hparams : paramNames c.template = t.names := by rw [Option.mem_def.1 ht, paramNames]
  rw [hwf.subst?_selfType hempty ht hmade.arity hnodup hspaces hplain, ← hcpp]
  exact (hthis (hparams ▸ hp) isConst sign _).symm

/-- A class in a namespace, with members of all kinds. -/
def urn : String :=
  "namespace b \x7b template<T, U> class Urn \x7b Urn(T t); template<V = \x7bT, char\x7d> "
    ++ "Urn(V v); This copy(const Urn<T, U>& u) const; static b::Urn<T, U> make(); __len__(); "
    ++ "This operator+(const This& u) const; U item; enum Kind \x7b Open, Shut \x7d; \x7d; \x7d"

/-- The members of an instance belong to its C++ type, which `const b::Urn<T, U>&` refers to just as
`const This&` does. -/
theorem urn_selfType : ∃ (m : Interface) (c y : ClassDecl), Interface.parse urn = .ok m ∧
    m.content.Has ["b"] (.cls c) ∧ c.selfType.text = "b::Urn<T, U>" ∧
    c.instantiate [.named "int", .mk ["std"] "set" [.named "char"] false none false] none = .ok y ∧
    y.cppType.text = "b::Urn<int, std::set<char>>" ∧ y.selfType = y.cppType ∧
    y.members.length = 9 ∧ (∀ m ∈ y.members, m.BelongsTo y.cppType) ∧
    (c.bound [.named "int", .mk ["std"] "set" [.named "char"] false none false]).subst?
      (.ofTypename c.selfType true (some .ref)) =
        some (.ofParts y.cppType true (some .ref) false) := by
  have hrun : ((Interface.parse urn).toOption.any fun m => m.content.spaces.any fun b =>
      b.1 == "b" && b.2.classes.any fun c => (c.instantiate [.named "int",
        .mk ["std"] "set" [.named "char"] false none false] none).toOption.any fun y => decide (
          c.selfType.text = "b::Urn<T, U>" ∧ y.cppType.text = "b::Urn<int, std::set<char>>" ∧
          y.members.length = 9 ∧ c.namespaces = ["b"] ∧
          c.template.map Template.names = some ["T", "U"])) = true := by
    have hchars : urn = String.ofList _ :=
      append_eq_ofList (append_eq_ofList rfl rfl) rfl
    rw [hchars, Interface.parse, parseWith, Lexed.ofSource_ofList]
    decide +kernel
  simp only [Option.any_eq_true, List.any_eq_true, Bool.and_eq_true, beq_iff_eq,
    decide_eq_true_eq] at hrun
  obtain ⟨m, hm, ⟨b, content⟩, hb, rfl, c, hc, y, hy, hself, hcpp, hlength, hspaces, hnames⟩ := hrun
  obtain ⟨t, ht, hparams⟩ := Option.map_eq_some_iff.1 hnames
  have hparse := except_ok_of_toOption hm
  have hinstance := except_ok_of_toOption hy
  obtain ⟨span, hmem⟩ := Content.exists_mem_of_mem_spaces hb
  have hhas : m.content.Has ["b"] (.cls c) := .inside hmem (.here (Content.mem_of_mem_classes hc))
  obtain ⟨hsame, hbelongs, hthis, hspelled⟩ :=
    selfType_of_instantiate hparse hhas (.inr rfl) hinstance
  have hp : thisName ∉ t.names := by
    rw [hparams]
    decide
  refine ⟨m, c, y, hparse, hhas, hself, hinstance, hcpp, hsame, hlength, hbelongs, ?_⟩
  rw [hspelled t ht (by rw [hparams]; decide) hp (by rw [hparams, hspaces]; decide) (by decide)]
  exact hthis (by rwa [ht]) true (some .ref) _

end ClassDecl

end TemplateIdl
