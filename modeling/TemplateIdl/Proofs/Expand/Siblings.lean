import TemplateIdl.Proofs.Expand.Again
import TemplateIdl.Proofs.Expand.Closed
import TemplateIdl.Proofs.Expand.Copy
import TemplateIdl.Proofs.Token.Literal

/-!
# Siblings — what the instances of a member have in common

Each instance of a member binds the parameters in the header of the member to other types. Where a
type of the member refers to none of these parameters, it is the same in all instances, namely what
the parameters of the class make of it.

* `Substitution.subst?_extend`, more parameters make no difference to type uses without them;
* `Member.Agrees`, members that have such types in common, and `Member.Instances.agrees`, the
  instances of a member have;
* `Member.Siblings` and `ClassDecl.siblings_of_instantiate`, the copies of members in an instance of
  a class.
-/

namespace TemplateIdl

/-! ## More parameters -/

/-- More parameters make no difference to a type use that refers to none of them, at no depth. -/
theorem Substitution.subst?_extend {σ : Substitution} {names : List String} {types : List TypeExpr}
    {t : TypeExpr} (h : ∀ u ∈ t.parts, ¬ u.RefersTo (· ∈ names)) :
    (σ.extend names types).subst? t = σ.subst? t := by
  induction t using TypeExpr.induct with
  | mk ns name as c i b ih =>
    obtain ⟨hself, hsub⟩ := TypeExpr.forall_mem_parts.1 h
    obtain ⟨hpath, hbare⟩ := not_or.1 hself
    have hnew : ∀ s ∈ (empty.extend names types).names, s ∈ names :=
      fun s hs => names_extend_subset names types hs
    refine subst?_congr ?_ (replace?_congr ?_ ?_ ?_ Iff.rfl)
    · rw [List.forall₂_same]
      exact fun a ha => ih a ha (hsub a ha)
    · rfl
    · have hnone : (empty.extend names types).scoped? ns = none :=
        scoped?_eq_none.2 fun s hs hmem => hpath ⟨s, hs, hnew s hmem⟩
      rw [scoped?_extend, hnone, Option.or_none]
    · intro hns has
      have hnone : (empty.extend names types).get? name = none :=
        get?_eq_none.2 fun hmem => hbare ⟨hns, has, hnew name hmem⟩
      rw [get?_extend, hnone, Option.or_none]

/-! ## Instances of one member -/

namespace Member

/-- Wherever a type of the member `g` refers to no parameter of `g`, at no depth, the members `ms`
all have the same type in its place: what `σ` makes of it. -/
def Agrees (σ : Substitution) (g : Member) (ms : List Member) : Prop :=
  ∀ (i : Nat) (t : TypeExpr), g.types[i]? = some t →
    (∀ u ∈ t.parts, ¬ u.RefersTo (· ∈ paramNames g.template)) →
    ∃ t', σ.subst? t = some t' ∧ ∀ m ∈ ms, m.types[i]? = some t'

/-- The members `ms` are the copies of `g`, and they agree in what does not depend on the parameters
of `g`. -/
structure Siblings (className : String) (σ : Substitution) (g : Member) (ms : List Member) :
    Prop where
  copies : g.Copies className ms
  agree : g.Agrees σ ms

variable {x : ClassContext} {className : String} {bindings : List TypeExpr} {g m : Member}

/-- The types of an instance stand where those of the member stand. -/
theorem Made.getElem?_types (h : Made x className bindings g m) {i : Nat} {t : TypeExpr}
    (ht : g.types[i]? = some t) :
    m.types[i]? = (x.bound g.template bindings).subst? t := by
  have hsub := h.substituted
  rw [Substituted, List.forall₂_map_left_iff] at hsub
  obtain ⟨hi, rfl⟩ := List.getElem?_eq_some_iff.1 ht
  have hi' : i < m.types.length := hsub.length_eq ▸ hi
  rw [List.getElem?_eq_getElem hi']
  exact (hsub.get hi hi').symm

theorem Instances.agrees {ms : List Member} (hthis : x.substitution.this.isSome = true)
    (h : g.Instances x className ms) : g.Agrees x.substitution ms := by
  intro i t ht hfree
  obtain ⟨t', ht'⟩ := Substitution.exists_subst? hthis t
  refine ⟨t', ht', ?_⟩
  intro m hm
  obtain ⟨bindings, -, hmade⟩ := exists_mem_of_forall₂ h.flip hm
  calc m.types[i]?
    _ = (x.bound g.template bindings).subst? t := hmade.getElem?_types ht
    _ = x.substitution.subst? t := Substitution.subst?_extend hfree
    _ = some t' := ht'

end Member

/-! ## Classes -/

namespace ClassDecl

variable {c y : ClassDecl} {bindings : List TypeExpr} {newName : Option String}

/-- **Instances of one member do not affect each other.** The constructors, the methods and the
static methods of an instance are the copies of those of the class, grouped by them. Within a group,
a type that refers to no parameter of the member is the same in all copies: what the parameters of
the class and `This` alone make of it. -/
theorem siblings_of_instantiate (h : c.instantiate bindings newName = .ok y) :
    Grouped (Member.Siblings y.name (c.bound bindings)) (c.ctors.map .ctor) (y.ctors.map .ctor) ∧
      Grouped (Member.Siblings y.name (c.bound bindings)) (c.methods.map .method)
        (y.methods.map .method) ∧
      Grouped (Member.Siblings y.name (c.bound bindings)) (c.statics.map .static)
        (y.statics.map .static) := by
  have hmade := made_of_expand h
  have hstep : ∀ g ms, Member.Instances (c.frame bindings y.name) y.name g ms →
      Member.Siblings y.name (c.bound bindings) g ms :=
    fun g ms hg => ⟨hg.copies, hg.agrees rfl⟩
  exact ⟨hmade.ctors.imp hstep, hmade.methods.imp hstep, hmade.statics.imp hstep⟩

/-- A class whose members have parameters of their own beside that of the class. -/
def vault : String :=
  "template<T> class Vault \x7b template<U = \x7bbool, char\x7d> Vault(const T& key, U code); "
    ++ "template<U = \x7bbool, char\x7d, V = \x7bdouble, T\x7d> "
    ++ "T put(const std::vector<T>& all, U::Key key, const This& other, std::map<T, V> rest); "
    ++ "template<W = \x7bint, This\x7d> static This open(const W& code, T* item); \x7d;"

/-- In all four copies of `put`, the result and the arguments `all` and `other` are the same. -/
theorem vault_siblings : ∃ (m : Interface) (c y : ClassDecl), Interface.parse vault = .ok m ∧
    m.content.classes = [c] ∧ c.instantiate [.named "A"] none = .ok y ∧
    y.methods.map (fun d => (Member.method d).types.map TypeExpr.text) =
      [["A", "const std::vector<A>&", "bool::Key", "const Vault<A>&", "std::map<A, double>"],
       ["A", "const std::vector<A>&", "bool::Key", "const Vault<A>&", "std::map<A, T>"],
       ["A", "const std::vector<A>&", "char::Key", "const Vault<A>&", "std::map<A, double>"],
       ["A", "const std::vector<A>&", "char::Key", "const Vault<A>&", "std::map<A, T>"]] ∧
    Grouped (Member.Siblings y.name (c.bound [.named "A"])) (c.methods.map .method)
      (y.methods.map .method) := by
  have hrun : ((Interface.parse vault).toOption.any fun m => m.content.classes.any fun c =>
      (c.instantiate [.named "A"] none).toOption.any fun y => decide (m.content.classes = [c] ∧
        y.methods.map (fun d => (Member.method d).types.map TypeExpr.text) =
      [["A", "const std::vector<A>&", "bool::Key", "const Vault<A>&", "std::map<A, double>"],
       ["A", "const std::vector<A>&", "bool::Key", "const Vault<A>&", "std::map<A, T>"],
       ["A", "const std::vector<A>&", "char::Key", "const Vault<A>&", "std::map<A, double>"],
       ["A", "const std::vector<A>&", "char::Key", "const Vault<A>&", "std::map<A, T>"]])) =
        true := by
    have hchars : vault = String.ofList _ :=
      append_eq_ofList (append_eq_ofList (append_eq_ofList rfl rfl) rfl) rfl
    rw [hchars, Interface.parse, parseWith, Lexed.ofSource_ofList]
    decide +kernel
  simp only [Option.any_eq_true, List.any_eq_true, decide_eq_true_eq] at hrun
  obtain ⟨m, hm, c, -, y, hy, hc, htexts⟩ := hrun
  have hinstance := except_ok_of_toOption hy
  exact ⟨m, c, y, except_ok_of_toOption hm, hc, hinstance, htexts,
    (siblings_of_instantiate hinstance).2.1⟩

end ClassDecl

end TemplateIdl
