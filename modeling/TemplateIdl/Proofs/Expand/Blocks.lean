import TemplateIdl.Expand.Interface
import TemplateIdl.Proofs.Expand.Outcome

/-!
# Blocks — what an expanded file consists of

The expansion of a file keeps a log of generated names and looks typedefs up in an index. None
of that shows in the declarations it gives: each declaration is replaced by a block that the
public `instantiate` functions determine.

* `Listed`, the instances that a template header asks for;
* `Target.instantiate`, the instance of a typedef's target under its new name;
* `Block` and `Blocks`, what stands in the place of a declaration and of several;
* `blocks_of_instantiate`, every expanded file consists of such blocks.
-/

namespace TemplateIdl

/-! ## The blocks -/

/-- The instances that stand for a declaration by itself: the one without bindings if there is
no header, and otherwise one for each combination of the types that the header lists, in the
order of `product`. -/
def Listed {α : Type} (make : List TypeExpr → Except ExpansionError α) :
    Option Template → List α → Prop
  | none, xs => ∃ x, make [] = .ok x ∧ xs = [x]
  | some t, xs => List.Forall₂ (fun bindings x => make bindings = .ok x) (product t.choices) xs

/-- The instance of a target under a new name. -/
def Target.instantiate (bindings : List TypeExpr) (newName : String) :
    Target → Except ExpansionError Declaration
  | .cls d => (d.instantiate bindings (some newName)).map .cls
  | .function d => (d.instantiate bindings (some newName)).map .function
  | .forward d => (d.instantiate bindings (some newName)).map .forward

mutual

/-- What stands in the place of a declaration, by its kind. -/
inductive Block (index : TypedefIndex) : Declaration → Content → Prop
  | inclusion (d : IncludeDecl) : Block index (.inclusion d) [.inclusion d]
  | enumeration (d : EnumDecl) : Block index (.enumeration d) [.enumeration d]
  | space {name : String} {content inner : Content} {span : Span}
      (h : Blocks index content inner) :
      Block index (.space name content span) [.space name inner span]
  | cls {d : ClassDecl} {xs : List ClassDecl}
      (h : Listed (fun bindings => d.instantiate bindings none) d.template xs) :
      Block index (.cls d) (xs.map .cls)
  | function {d : FunctionDecl} {xs : List FunctionDecl}
      (h : Listed (fun bindings => d.instantiate bindings none) d.template xs) :
      Block index (.function d) (xs.map .function)
  | var {d : VariableDecl} {xs : List VariableDecl}
      (h : Listed (fun bindings => d.instantiate bindings none) d.template xs) :
      Block index (.var d) (xs.map .var)
  | plainForward {d : ForwardDecl} (h : d.template = none) :
      Block index (.forward d) [.forward d]
  | forward {d : ForwardDecl} {t : Template} {xs : List ForwardDecl} (ht : d.template = some t)
      (h : Listed (fun bindings => d.instantiate bindings none) (some t) xs) :
      Block index (.forward d) (xs.map .forward)
  | typedef {d : TypedefDecl} {target : Target} {x : Declaration}
      (ht : index.resolve d.namespaces (d.target.namespaces ++ [d.target.name]) = [target])
      (h : target.instantiate d.target.args d.newName = .ok x) :
      Block index (.typedef d) [x]

/-- What stands in the place of several declarations: their blocks in order. -/
inductive Blocks (index : TypedefIndex) : Content → Content → Prop
  | nil : Blocks index [] []
  | cons {d : Declaration} {ds here rest : Content} (hd : Block index d here)
      (hds : Blocks index ds rest) : Blocks index (d :: ds) (here ++ rest)

end

/-! ## Instances -/

/-- The place that a wrong number of types is reported at does not matter to a right one. -/
theorem Substitution.bind_span {name : String} {params : List String} {types : List TypeExpr}
    {span : Span} {σ : Substitution} (h : bind name params types span = .ok σ) (span' : Span) :
    bind name params types span' = .ok σ := by
  unfold bind at h ⊢
  by_cases hl : params.length = types.length
  · rw [if_pos hl] at h ⊢
    exact h
  · rw [if_neg hl] at h
    cases h

theorem ClassDecl.instantiate_of_expand {span : Span} {d x : ClassDecl}
    {bindings : List TypeExpr} {newName : Option String}
    (h : (d.expand span bindings newName).outcome = .ok x) :
    d.instantiate bindings newName = .ok x := by
  obtain ⟨σ, hσ, h⟩ := Expansion.outcome_bind_ok h
  have hσ' := Substitution.bind_span hσ d.span
  unfold instantiate expand
  rw [Expansion.outcome_bind]
  show (Substitution.bind d.name (paramNames d.template) bindings d.span).bind _ = _
  rw [hσ']
  exact h

theorem FunctionDecl.instantiate_of_instantiateAt {span : Span} {d x : FunctionDecl}
    {bindings : List TypeExpr} {newName : Option String}
    (h : d.instantiateAt span bindings newName = .ok x) :
    d.instantiate bindings newName = .ok x := by
  obtain ⟨σ, hσ, h⟩ := except_bind_ok h
  have hσ' := Substitution.bind_span hσ d.span
  show (Substitution.bind d.name (paramNames d.template) bindings d.span).bind _ = _
  rw [hσ']
  exact h

theorem ForwardDecl.instantiate_of_instantiateAt {span : Span} {d x : ForwardDecl}
    {bindings : List TypeExpr} {newName : Option String}
    (h : d.instantiateAt span bindings newName = .ok x) :
    d.instantiate bindings newName = .ok x := by
  obtain ⟨parent, hp, h⟩ := except_bind_ok h
  have hp' : d.instanceParent d.span bindings = .ok parent := by
    unfold instanceParent at hp ⊢
    cases ht : d.template with
    | none => rw [ht] at hp; exact hp
    | some t =>
      rw [ht] at hp
      obtain ⟨σ, hσ, hp⟩ := except_bind_ok hp
      show (Substitution.bind d.name t.names bindings d.span).bind _ = _
      rw [Substitution.bind_span hσ d.span]
      exact hp
  show (d.instanceParent d.span bindings).bind _ = _
  rw [hp']
  exact h

theorem Target.instantiate_of_expand {span : Span} {bindings : List TypeExpr} {newName : String}
    {target : Target} {x : Declaration}
    (h : (target.expand span bindings newName).outcome = .ok x) :
    target.instantiate bindings newName = .ok x := by
  cases target with
  | cls d =>
    obtain ⟨y, hy, rfl⟩ := Expansion.outcome_wrap_ok h
    simp only [Target.instantiate, ClassDecl.instantiate_of_expand hy, Except.map]
  | function d =>
    obtain ⟨y, hy, rfl⟩ := Expansion.outcome_wrap_ok h
    simp only [Target.instantiate, FunctionDecl.instantiate_of_instantiateAt hy, Except.map]
  | forward d =>
    obtain ⟨y, hy, rfl⟩ := Expansion.outcome_wrap_ok h
    simp only [Target.instantiate, ForwardDecl.instantiate_of_instantiateAt hy, Except.map]

/-! ## Every expanded file consists of blocks -/

/-- The instances that a header lists, as declarations of the kind `wrap`. -/
theorem listed_of_expandListed {α : Type} {scope : List String} {d : Declaration}
    {template : Option Template} {make : List TypeExpr → Expansion Declaration}
    (wrap : α → Declaration) (instantiate : List TypeExpr → Except ExpansionError α)
    (hmake : ∀ bindings x, (make bindings).outcome = .ok x →
      ∃ y, instantiate bindings = .ok y ∧ wrap y = x)
    {block : Content} (h : (expandListed scope d template make).outcome = .ok block) :
    ∃ xs, Listed instantiate template xs ∧ block = xs.map wrap := by
  -- registering its name leaves an instance as it is
  have hstep : ∀ bindings x,
      (do let x ← make bindings
          Expansion.register ⟨scope, x.name, describe d.name bindings, d.span⟩
          pure x : Expansion Declaration).outcome = .ok x →
      ∃ y, instantiate bindings = .ok y ∧ wrap y = x := by
    intro bindings x hx
    obtain ⟨z, hz, hx⟩ := Expansion.outcome_bind_ok hx
    obtain ⟨u, -, rfl⟩ := Expansion.outcome_wrap_ok hx
    exact hmake bindings _ hz
  have hlist : ∀ {bss : List (List TypeExpr)} {block : Content},
      List.Forall₂ (fun bindings x => ∃ y, instantiate bindings = .ok y ∧ wrap y = x) bss block →
      ∃ xs, List.Forall₂ (fun bindings x => instantiate bindings = .ok x) bss xs ∧
        block = xs.map wrap := by
    intro bss block hb
    induction hb with
    | nil => exact ⟨[], .nil, rfl⟩
    | cons hx _ ih =>
      obtain ⟨y, hy, rfl⟩ := hx
      obtain ⟨ys, hys, rfl⟩ := ih
      exact ⟨y :: ys, .cons hy hys, rfl⟩
  obtain ⟨xs, hxs, rfl⟩ := hlist ((Expansion.outcome_forEach_ok h).imp (fun bs x => hstep bs x))
  cases template with
  | some t => exact ⟨xs, hxs, rfl⟩
  | none =>
    cases hxs with
    | cons hx hnil =>
      cases hnil
      exact ⟨_, ⟨_, hx, rfl⟩, rfl⟩

theorem TypedefIndex.resolve_of_target {index : TypedefIndex} {d : TypedefDecl} {t : Target}
    (h : index.target d = .ok t) :
    index.resolve d.namespaces (d.target.namespaces ++ [d.target.name]) = [t] := by
  unfold TypedefIndex.target at h
  split at h
  · cases h
  · next t' ht => cases h; exact ht
  · cases h

mutual

theorem block_of_expandDeclaration (index : TypedefIndex) (scope : List String)
    (d : Declaration) {block : Content}
    (h : (expandDeclaration index scope d).outcome = .ok block) : Block index d block := by
  cases d with
  | inclusion d => cases Expansion.outcome_pure_ok h; exact .inclusion d
  | enumeration d => cases Expansion.outcome_pure_ok h; exact .enumeration d
  | space name content span =>
    obtain ⟨inner, hinner, rfl⟩ := Expansion.outcome_wrap_ok h
    exact .space (blocks_of_expandContent index _ content hinner)
  | cls d =>
    obtain ⟨xs, hxs, rfl⟩ := listed_of_expandListed .cls
      (fun bindings => d.instantiate bindings none)
      (fun bindings x hx => Expansion.outcome_wrap_ok hx) h
    exact .cls hxs
  | function d =>
    obtain ⟨xs, hxs, rfl⟩ := listed_of_expandListed .function
      (fun bindings => d.instantiate bindings none)
      (fun bindings x hx => Expansion.outcome_wrap_ok hx) h
    exact .function hxs
  | var d =>
    obtain ⟨xs, hxs, rfl⟩ := listed_of_expandListed .var
      (fun bindings => d.instantiate bindings none)
      (fun bindings x hx => Expansion.outcome_wrap_ok hx) h
    exact .var hxs
  | forward d =>
    cases ht : d.template with
    | none =>
      simp only [expandDeclaration, ht] at h
      cases Expansion.outcome_pure_ok h
      exact .plainForward ht
    | some t =>
      simp only [expandDeclaration, ht, Option.isSome_some, if_true] at h
      obtain ⟨xs, hxs, rfl⟩ := listed_of_expandListed .forward
        (fun bindings => d.instantiate bindings none)
        (fun bindings x hx => Expansion.outcome_wrap_ok hx) h
      exact .forward ht hxs
  | typedef d =>
    obtain ⟨x, hx, rfl⟩ := Expansion.outcome_wrap_ok h
    obtain ⟨target, ht, hx⟩ := Expansion.outcome_bind_ok hx
    obtain ⟨y, hy, hx⟩ := Expansion.outcome_bind_ok hx
    obtain ⟨u, -, rfl⟩ := Expansion.outcome_wrap_ok hx
    exact .typedef (TypedefIndex.resolve_of_target ht) (Target.instantiate_of_expand hy)

theorem blocks_of_expandContent (index : TypedefIndex) (scope : List String) (ds : Content)
    {out : Content} (h : (expandContent index scope ds).outcome = .ok out) :
    Blocks index ds out := by
  cases ds with
  | nil => cases Expansion.outcome_pure_ok h; exact .nil
  | cons d ds =>
    obtain ⟨here, hhere, h⟩ := Expansion.outcome_bind_ok h
    obtain ⟨rest, hrest, rfl⟩ := Expansion.outcome_wrap_ok h
    exact .cons (block_of_expandDeclaration index scope d hhere)
      (blocks_of_expandContent index scope ds hrest)

end

/-- Under every policy, an expanded file consists of the blocks of its declarations, in their
order and in every namespace. -/
theorem blocks_of_instantiate (policy : CollisionPolicy) (m out : Interface)
    (h : m.instantiate policy = .ok out) :
    Blocks (TypedefIndex.ofContent m.content) m.content out.content := by
  obtain ⟨content, hc, rfl⟩ := except_map_ok h
  exact blocks_of_expandContent _ [] m.content (Expansion.outcome_of_settle hc)

/-- `template<T = {int, bool}> class Box { T get(); };` and
`namespace tools { typedef Box<double> Crate; }`. -/
def boxes : Interface where
  content :=
    [.cls
      { ClassDecl.bare "Box" [] (.point .start) with
        template := some ⟨[⟨"T", [.named "int", .named "bool"]⟩]⟩
        methods :=
          [⟨"get", .single (.named "T"), [], false, ⟨[], "Box", [.named "T"]⟩, none,
            .point .start, none⟩] },
     .space "tools"
      [.typedef ⟨⟨[], "Box", [.named "double"]⟩, "Crate", ["tools"], .point .start⟩]
      (.point .start)]

/-- The two listed boxes stand in the place of the template, and the third one, under its new
name, in the place of the typedef. -/
theorem blocks_boxes : ∃ out, boxes.instantiate .error = .ok out ∧
    out.content.names = ["BoxInt", "BoxBool", "tools"] ∧
    Blocks (TypedefIndex.ofContent boxes.content) boxes.content out.content :=
  ⟨_, rfl, by decide, blocks_of_instantiate .error boxes _ rfl⟩

end TemplateIdl
