import TemplateIdl.Proofs.Expand.Collision
import TemplateIdl.Proofs.Expand.Types

/-!
# Faults — what can be wrong with a file without typedefs

Headers list as many types as they have parameters, and inside a class `This` always stands for
something. What is left are the types of functions, of variables and of the parents of templated
forward declarations.

* `Substitution.exists_subst?_of_plain`, without a placeholder, substitution never fails;
* `Declaration.LosesThis`, a declaration in which `This` stands for no class;
* `errorsIn_expandContent`, without typedefs all errors are about such declarations;
* `Interface.lost_of_instantiate` and `Interface.failures`, and so they are for a file, apart from
  collisions that are refused.
-/

namespace TemplateIdl

/-! ## Types without a placeholder -/

namespace Substitution

variable {σ : Substitution}

theorem exists_replace?_of_plain {t : TypeExpr} (h : ¬ t.IsPlaceholder) (args : List TypeExpr) :
    ∃ t', σ.replace? t args = some t' := by
  rw [TypeExpr.IsPlaceholder, not_or] at h
  obtain ⟨hname, hpath⟩ := h
  have hsplit := splitAtFirst?_eq_none.2 hpath
  rw [← Option.isSome_iff_exists]
  unfold replace?
  split
  · rfl
  · dsimp only
    split
    · rfl
    · split
      · next hbare =>
        -- that would be the bare name `This`
        simp only [Bool.and_eq_true, List.isEmpty_iff, beq_iff_eq] at hbare
        exact absurd ⟨hbare.1.1, hbare.1.2, hbare.2⟩ hname
      · rw [hsplit]
        rfl

/-- Whatever is bound, a type in which nothing stands for the enclosing class can be
substituted. -/
theorem exists_subst?_of_plain {t : TypeExpr} (h : ∀ u ∈ t.parts, ¬ u.IsPlaceholder) :
    ∃ t', σ.subst? t = some t' := by
  induction t using TypeExpr.induct with
  | mk ns n as c i b ih =>
    have hargs : ∀ a ∈ as, ∃ a', σ.subst? a = some a' := fun a ha =>
      ih a ha fun u hu => h u (TypeExpr.mem_parts.2 (.inr ⟨a, ha, hu⟩))
    obtain ⟨args, hargs⟩ := exists_forall₂ hargs
    obtain ⟨t', ht'⟩ := exists_replace?_of_plain (h _ (TypeExpr.self_mem_parts _)) args
    exact ⟨t', subst?_eq_some.2 ⟨args, hargs, ht'⟩⟩

theorem exists_bind {name : String} {params : List String} {types : List TypeExpr} {span : Span}
    (h : params.length = types.length) : ∃ σ, bind name params types span = .ok σ :=
  ⟨_, if_pos h⟩

end Substitution

/-! ## Declarations outside of classes -/

/-- There is no typedef at any depth. -/
def Content.NoTypedef (ds : Content) : Prop := ∀ path d, ¬ ds.Has path (.typedef d)

/-- Whether the declaration is a typedef. -/
def Declaration.isTypedef : Declaration → Bool
  | .typedef _ => true
  | .inclusion _ | .space _ _ _ | .cls _ | .enumeration _ => false
  | .forward _ | .function _ | .var _ => false

instance (ds : Content) : Decidable ds.NoTypedef :=
  decidable_of_iff (∀ d ∈ contentNested ds, d.isTypedef = false) (by
    constructor
    · intro h path d hd
      cases h (.typedef d) (mem_contentNested.2 ⟨path, hd⟩)
    · intro h d hd
      obtain ⟨path, hd⟩ := mem_contentNested.1 hd
      cases d with
      | typedef d => exact absurd hd (h path d)
      | _ => rfl)

theorem Content.NoTypedef.mono {as bs : Content} (h : bs.NoTypedef) (hsub : as ⊆ bs) :
    as.NoTypedef :=
  fun path d hd => h path d (hd.mono hsub)

namespace Declaration

/-- The type uses of a declaration in which `This` has no meaning: the signature of a function, the
type of a variable and the parent of a forward declaration with a header. -/
def freeTypes : Declaration → List TypeExpr
  | .function d => d.result.types ++ argumentTypes d.args
  | .var d => [d.type]
  | .forward d => if d.template.isSome then d.parent.toList else []
  | .inclusion _ | .space _ _ _ | .cls _ | .enumeration _ | .typedef _ => []

/-- At some depth, a type use of the declaration is the bare name `This` or has `This` in its path,
and there is no class that this could stand for. -/
def LosesThis (d : Declaration) : Prop := ∃ t ∈ d.freeTypes, ∃ u ∈ t.parts, u.IsPlaceholder

instance (d : Declaration) : Decidable d.LosesThis :=
  inferInstanceAs (Decidable (∃ t ∈ d.freeTypes, ∃ u ∈ t.parts, u.IsPlaceholder))

end Declaration

section Free

variable {E : ExpansionError → Prop} {σ : Substitution} {bindings : List TypeExpr}

theorem errorsIn_resolved {α : Type} {name : String} {span : Span} {x : Option α}
    (h : x = none → E ⟨.unresolvedSelf name, span⟩) : ErrorsIn E (resolved name span x) := by
  intro e he
  cases x with
  | none =>
    cases he
    exact h rfl
  | some a => cases he

theorem errorsIn_bind {name : String} {params : List String} {span : Span}
    (h : params.length = bindings.length) :
    ErrorsIn E (Substitution.bind name params bindings span) :=
  .of_exists (Substitution.exists_bind h)

/-- If something in a declaration cannot be substituted, then because it loses `This`. -/
theorem losesThis_of_not_exists {d : Declaration}
    (h : ¬ ∀ t ∈ d.freeTypes, ∃ t', σ.subst? t = some t') : d.LosesThis := by
  simp only [not_forall] at h
  obtain ⟨t, ht, hnone⟩ := h
  refine ⟨t, ht, ?_⟩
  by_contra hplain
  apply hnone
  apply Substitution.exists_subst?_of_plain
  intro u hu hholder
  exact hplain ⟨u, hu, hholder⟩

theorem errorsIn_function {d : FunctionDecl}
    (hb : (paramNames d.template).length = bindings.length)
    (h : (Declaration.function d).LosesThis → E ⟨.unresolvedSelf d.name, d.span⟩) :
    ErrorsIn E (d.instantiate bindings none) := by
  refine (errorsIn_bind hb).bind fun σ => ?_
  refine (errorsIn_resolved fun hnone => ?_).bind fun result => ?_
  · apply h
    apply losesThis_of_not_exists (σ := σ)
    intro hall
    obtain ⟨r, hr⟩ := Substitution.exists_substReturn?_of fun t ht =>
      hall t (List.mem_append_left _ ht)
    rw [hr] at hnone
    cases hnone
  · refine (errorsIn_resolved fun hnone => ?_).bind fun args => .ok _
    apply h
    apply losesThis_of_not_exists (σ := σ)
    intro hall
    obtain ⟨args, hargs⟩ := Substitution.exists_substArguments?_of fun t ht =>
      hall t (List.mem_append_right _ ht)
    rw [hargs] at hnone
    cases hnone

theorem errorsIn_variable {d : VariableDecl}
    (hb : (paramNames d.template).length = bindings.length)
    (h : (Declaration.var d).LosesThis → E ⟨.unresolvedSelf d.name, d.span⟩) :
    ErrorsIn E (d.instantiate bindings none) := by
  refine (errorsIn_bind hb).bind fun σ => ?_
  refine (errorsIn_resolved fun hnone => ?_).bind fun type => .ok _
  apply h
  apply losesThis_of_not_exists (σ := σ)
  intro hall
  obtain ⟨type, htype⟩ := hall d.type List.mem_cons_self
  rw [htype] at hnone
  cases hnone

theorem errorsIn_forward {d : ForwardDecl} {t : Template} (ht : d.template = some t)
    (hb : t.names.length = bindings.length)
    (h : (Declaration.forward d).LosesThis → E ⟨.unresolvedSelf d.name, d.span⟩) :
    ErrorsIn E (d.instantiate bindings none) := by
  have hparent : ErrorsIn E (d.instanceParent d.span bindings) := by
    unfold ForwardDecl.instanceParent
    rw [ht]
    refine (errorsIn_bind hb).bind fun σ => errorsIn_resolved fun hnone => ?_
    apply h
    apply losesThis_of_not_exists (σ := σ)
    intro hall
    have htypes : (Declaration.forward d).freeTypes = d.parent.toList := by
      simp [Declaration.freeTypes, ht]
    obtain ⟨parent, hparent⟩ := Substitution.exists_substOption?_of (htypes ▸ hall)
    rw [hparent] at hnone
    cases hnone
  exact hparent.bind fun parent => .ok _

end Free

/-! ## Files without typedefs -/

section Content

variable {E : ExpansionError → Prop}

theorem errorsIn_expandListed {scope : List String} {d : Declaration} {template : Option Template}
    {make : List TypeExpr → Expansion Declaration}
    (hmake : ∀ bindings, (paramNames template).length = bindings.length →
      ErrorsIn E (make bindings).outcome) :
    ErrorsIn E (expandListed scope d template make).outcome := by
  apply Expansion.errorsIn_forEach
  intro bindings hb
  refine Expansion.errorsIn_bind (hmake bindings (length_of_mem_combinations hb)) fun x => ?_
  exact Expansion.errorsIn_bind (.ok ()) fun _ => .ok x

mutual

theorem errorsIn_expandDeclaration (index : TypedefIndex) (scope : List String) (d : Declaration)
    (hnone : Content.NoTypedef [d])
    (hE : ∀ path d', Content.Has [d] path d' → d'.LosesThis →
      E ⟨.unresolvedSelf d'.name, d'.span⟩) :
    ErrorsIn E (expandDeclaration index scope d).outcome := by
  have hself := hE [] d (.here (List.mem_singleton_self d))
  cases d with
  | space name content span =>
    rw [expandDeclaration]
    refine Expansion.errorsIn_bind ?_ fun inner => .ok _
    apply errorsIn_expandContent index (scope ++ [name]) content
    · exact fun path d hd => hnone _ d (.inside List.mem_cons_self hd)
    · exact fun path d hd => hE _ d (.inside List.mem_cons_self hd)
  | cls c =>
    rw [expandDeclaration]
    apply errorsIn_expandListed
    intro bindings hb
    obtain ⟨x, hx, -⟩ := ClassDecl.exists_expand hb c.span none
    exact Expansion.errorsIn_bind (.of_exists ⟨x, hx⟩) fun x => .ok _
  | function d =>
    rw [expandDeclaration]
    exact errorsIn_expandListed fun bindings hb =>
      Expansion.errorsIn_bind (errorsIn_function hb hself) fun x => .ok _
  | var d =>
    rw [expandDeclaration]
    exact errorsIn_expandListed fun bindings hb =>
      Expansion.errorsIn_bind (errorsIn_variable hb hself) fun x => .ok _
  | forward d =>
    rw [expandDeclaration]
    cases ht : d.template with
    | none => exact .ok _
    | some t =>
      exact errorsIn_expandListed fun bindings hb =>
        Expansion.errorsIn_bind (errorsIn_forward ht hb hself) fun x => .ok _
  | typedef d => exact absurd (.here (List.mem_singleton_self _)) (hnone [] d)
  | inclusion d =>
    rw [expandDeclaration]
    exact .ok _
  | enumeration d =>
    rw [expandDeclaration]
    exact .ok _

/-- Without typedefs, the errors in the expansion of declarations are about those that lose
`This`. -/
theorem errorsIn_expandContent (index : TypedefIndex) (scope : List String)
    (ds : List Declaration) (hnone : Content.NoTypedef ds)
    (hE : ∀ path d, Content.Has ds path d → d.LosesThis → E ⟨.unresolvedSelf d.name, d.span⟩) :
    ErrorsIn E (expandContent index scope ds).outcome := by
  cases ds with
  | nil =>
    rw [expandContent]
    exact .ok _
  | cons d ds =>
    rw [expandContent]
    have hhere : ErrorsIn E (expandDeclaration index scope d).outcome :=
      errorsIn_expandDeclaration index scope d (hnone.mono (by simp))
        fun path d' hd' => hE path d' (hd'.mono (by simp))
    have hrest : ErrorsIn E (expandContent index scope ds).outcome :=
      errorsIn_expandContent index scope ds (hnone.mono (List.subset_cons_self d ds))
        fun path d' hd' => hE path d' (hd'.mono (List.subset_cons_self d ds))
    exact Expansion.errorsIn_bind hhere fun here => Expansion.errorsIn_bind hrest fun rest => .ok _

end

end Content

namespace Interface

variable {m : Interface}

/-- Without typedefs, an error names a declaration that loses `This`, and stands where that
declaration stands, unless the policy is strict and the error is a collision. -/
theorem lost_of_instantiate (hnone : m.content.NoTypedef) {policy : CollisionPolicy}
    {e : ExpansionError} (he : m.instantiate policy = .error e) :
    (∃ path d, m.content.Has path d ∧ d.LosesThis ∧ e = ⟨.unresolvedSelf d.name, d.span⟩) ∨
      policy = .error ∧ ∃ name first second, e.fault = .nameCollision name first second := by
  have herrors : ErrorsIn (fun e => ∃ path d, m.content.Has path d ∧ d.LosesThis ∧
      e = ⟨.unresolvedSelf d.name, d.span⟩)
      (expandContent (.ofContent m.content) [] m.content).outcome :=
    errorsIn_expandContent _ [] m.content hnone fun path d hd hlost => ⟨path, d, hd, hlost, rfl⟩
  unfold instantiate at he
  dsimp only at he
  cases hrun : (expandContent (.ofContent m.content) [] m.content).settle policy with
  | ok ds =>
    rw [hrun] at he
    cases he
  | error e' =>
    rw [hrun] at he
    cases he
    unfold Expansion.settle at hrun
    split at hrun
    · next hg =>
      cases hrun
      obtain ⟨r, -, first, -, rfl, -⟩ := NameRegistry.exists_of_registerAll_eq_error hg
      exact .inr ⟨NameRegistry.policy_of_registerAll_eq_error hg, _, _, _, rfl⟩
    · exact .inl (herrors _ hrun)

/-- A file without typedefs never fails for the number of types or for the target of a typedef, and
only the strict policy lets it fail for a name. If no declaration loses `This` either, it is
expanded under both other policies, whatever stands in its classes. -/
theorem failures (hnone : m.content.NoTypedef) :
    (∀ policy e, m.instantiate policy = .error e →
      (∀ name expected got, e.fault ≠ .arityMismatch name expected got) ∧
      (∀ name, e.fault ≠ .unresolvedTarget name) ∧
      (∀ name count, e.fault ≠ .ambiguousTarget name count) ∧
      ∀ name first second, e.fault = .nameCollision name first second → policy = .error) ∧
    ((∀ path d, m.content.Has path d → ¬ d.LosesThis) →
      ∀ policy, policy ≠ .error → ∃ out, m.instantiate policy = .ok out) := by
  constructor
  · intro policy e he
    obtain ⟨path, d, -, -, rfl⟩ | ⟨hstrict, name, first, second, hfault⟩ :=
      lost_of_instantiate hnone he
    · exact ⟨nofun, nofun, nofun, nofun⟩
    · rw [hfault]
      exact ⟨nofun, nofun, nofun, fun _ _ _ _ => hstrict⟩
  · intro hkept policy hlenient
    cases hrun : m.instantiate policy with
    | ok out => exact ⟨out, rfl⟩
    | error e =>
      obtain ⟨path, d, hd, hlost, -⟩ | ⟨hstrict, -⟩ := lost_of_instantiate hnone hrun
      · exact absurd hlost (hkept path d hd)
      · exact absurd hstrict hlenient

/-- In a namespace, a class full of `This`; behind it, a function that is given `This` as a type,
and a variable. -/
def mirrors : String :=
  "namespace hall \x7b template<T = \x7bint, This\x7d> class Mirror : This \x7b This::Frame twin(T t); \x7d; \x7d"
    ++ " template<T = \x7bThis\x7d> T look(T t); int count;"

/-- There is no typedef in the file and only its class mentions `This` where that is not given, so
that nothing can go wrong apart from collisions. -/
theorem mirrors_failures : ∃ m, parse mirrors = .ok m ∧ m.content.NoTypedef ∧
    (∀ path d, m.content.Has path d → ¬ d.LosesThis) ∧ ∃ out, m.instantiate .ignore = .ok out := by
  have hrun : ((parse mirrors).toOption.any fun m : Interface =>
      decide (m.content.NoTypedef ∧ ∀ d ∈ contentNested m.content, ¬ d.LosesThis)) = true := by
    decide +kernel
  simp only [Option.any_eq_true, decide_eq_true_eq] at hrun
  obtain ⟨m, hm, hnone, hall⟩ := hrun
  have hkept : ∀ path d, m.content.Has path d → ¬ d.LosesThis :=
    fun path d hd => hall d (mem_contentNested.2 ⟨path, hd⟩)
  exact ⟨m, except_ok_of_toOption hm, hnone, hkept, (failures hnone).2 hkept .ignore (by decide)⟩

end Interface

end TemplateIdl
