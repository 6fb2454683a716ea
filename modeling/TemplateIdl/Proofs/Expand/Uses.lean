import TemplateIdl.Proofs.Decl.Scopes
import TemplateIdl.Proofs.Expand.Parameters
import TemplateIdl.Proofs.Expand.Report
import TemplateIdl.Proofs.Expand.Types

/-!
# Uses — the types in an expanded file

Each type in an expanded file is one of the file that was expanded, either copied or substituted.

* `TypeUse` and `TypeUse.Becomes`, a type use of a file with what is bound in it, and what it
  becomes;
* `FunctionDecl.eq_of_instantiate` and `VariableDecl.eq_of_instantiate`, what instances look like;
* `Interface.uses`, the type uses of a file, once for each instance that they are part of;
* `Interface.types_of_instantiate`, what they become are the types in the expanded file, in order;
* `exists_of_mem_contentUses`, a use stands in a declaration at some depth;
* `TypeUse.Written` and `Interface.written_of_mem_uses`, in a file that is read, the types in uses
  and what is bound in them can be written.
-/

namespace TemplateIdl

/-! ## Type uses with what is bound in them -/

/-- A type use on its way into an instance. -/
inductive TypeUse where
  /-- The type is copied as it is. -/
  | copied (t : TypeExpr)
  /-- What is bound is substituted in the type. -/
  | bound (σ : Substitution) (t : TypeExpr)

/-- What becomes of a type use. -/
inductive TypeUse.Becomes : TypeUse → TypeExpr → Prop
  | copied (t : TypeExpr) : Becomes (.copied t) t
  | bound {σ : Substitution} {t t' : TypeExpr} (h : σ.subst? t = some t') :
      Becomes (.bound σ t) t'

/-- The types in an instance of a declaration with a header, with what is bound in them. -/
def headerUses (template : Option Template) (bindings : List TypeExpr) (ts : List TypeExpr) :
    List TypeUse :=
  ts.map (.bound (Substitution.empty.extend (paramNames template) bindings))

/-- The type uses in an instance of a target. A forward declaration without a header is copied,
whatever is bound. -/
def Target.uses (bindings : List TypeExpr) : Target → List TypeUse
  | .cls d => (d.uses bindings).map fun s => .bound s.1 s.2
  | .function d => headerUses d.template bindings (d.result.types ++ argumentTypes d.args)
  | .forward d =>
    if d.template.isSome then headerUses d.template bindings d.parent.toList
    else d.parent.toList.map .copied

mutual

/-- The type uses in a declaration, once for each instance that it stands for. -/
def Declaration.uses (index : TypedefIndex) : Declaration → List TypeUse
  | .space _ content _ => contentUses index content
  | .cls d => (combinationsOf d.template).flatMap fun bindings => Target.uses bindings (.cls d)
  | .function d =>
    (combinationsOf d.template).flatMap fun bindings => Target.uses bindings (.function d)
  | .forward d =>
    (combinationsOf d.template).flatMap fun bindings => Target.uses bindings (.forward d)
  | .var d => (combinationsOf d.template).flatMap fun bindings =>
    headerUses d.template bindings [d.type]
  | .typedef d => (index.target d).toOption.toList.flatMap (Target.uses d.target.args)
  | .inclusion _ | .enumeration _ => []

/-- The type uses in several declarations. -/
def contentUses (index : TypedefIndex) : List Declaration → List TypeUse
  | [] => []
  | d :: ds => d.uses index ++ contentUses index ds

end

/-- The type uses of a file, once for each instance that they are part of. -/
def Interface.uses (m : Interface) : List TypeUse :=
  contentUses (.ofContent m.content) m.content

/-! ## Signatures -/

/-- Types that are substituted become what they are substituted by. -/
theorem Substituted.becomes {uses : List (Substitution × TypeExpr)} {ts : List TypeExpr}
    (h : Substituted uses ts) :
    List.Forall₂ TypeUse.Becomes (uses.map fun s => .bound s.1 s.2) ts := by
  rw [List.forall₂_map_left_iff]
  exact h.imp fun _ _ => .bound

/-- Copied types become themselves. -/
theorem becomes_copied (ts : List TypeExpr) :
    List.Forall₂ TypeUse.Becomes (ts.map .copied) ts := by
  rw [List.forall₂_map_left_iff, List.forall₂_same]
  exact fun t _ => .copied t

/-- The types in an instance of a declaration with a header. -/
theorem Substituted.becomes_header {template : Option Template} {bindings ts us : List TypeExpr}
    (h : Substituted
      (ts.map fun t => (Substitution.empty.extend (paramNames template) bindings, t)) us) :
    List.Forall₂ TypeUse.Becomes (headerUses template bindings ts) us := by
  have hbecomes := h.becomes
  rw [List.map_map] at hbecomes
  exact hbecomes

/-! ## Instances -/

open TypeUse

/-- What is made of a function. -/
theorem FunctionDecl.eq_of_instantiate {d x : FunctionDecl} {bindings : List TypeExpr}
    {newName : Option String} (h : d.instantiate bindings newName = .ok x) :
    (paramNames d.template).length = bindings.length ∧ ∃ result args,
      (Substitution.empty.extend (paramNames d.template) bindings).substReturn? d.result =
        some result ∧
      (Substitution.empty.extend (paramNames d.template) bindings).substArguments? d.args =
        some args ∧
      x = ⟨instanceName d.name bindings newName, result, args, none, d.namespaces, d.span,
        provenanceOf d.template d.name bindings⟩ := by
  obtain ⟨σ, hσ, h⟩ := except_bind_ok h
  obtain ⟨result, hresult, h⟩ := except_bind_ok h
  obtain ⟨args, hargs, h⟩ := except_bind_ok h
  cases h
  obtain ⟨hlength, rfl⟩ := Substitution.bind_ok hσ
  exact ⟨hlength, result, args, ok_of_resolved hresult, ok_of_resolved hargs, rfl⟩

/-- What is made of a variable. -/
theorem VariableDecl.eq_of_instantiate {d x : VariableDecl} {bindings : List TypeExpr}
    {newName : Option String} (h : d.instantiate bindings newName = .ok x) :
    (paramNames d.template).length = bindings.length ∧ ∃ type,
      (Substitution.empty.extend (paramNames d.template) bindings).subst? d.type = some type ∧
      x = ⟨type, instanceName d.name bindings newName, d.default?, none, d.namespaces, d.owner,
        d.span, provenanceOf d.template d.name bindings⟩ := by
  obtain ⟨σ, hσ, h⟩ := except_bind_ok h
  obtain ⟨type, htype, h⟩ := except_bind_ok h
  cases h
  obtain ⟨hlength, rfl⟩ := Substitution.bind_ok hσ
  exact ⟨hlength, type, ok_of_resolved htype, rfl⟩

theorem ClassDecl.types_of_instantiate {d x : ClassDecl} {bindings : List TypeExpr}
    {newName : Option String} (h : d.instantiate bindings newName = .ok x) :
    List.Forall₂ Becomes (Target.uses bindings (.cls d)) x.types := by
  obtain ⟨y, hy, hsub⟩ := exists_expand (expandsTo_of_expand h).arity d.span newName
  cases hy.symm.trans h
  exact hsub.becomes

theorem FunctionDecl.types_of_instantiate {d x : FunctionDecl} {bindings : List TypeExpr}
    {newName : Option String} (h : d.instantiate bindings newName = .ok x) :
    List.Forall₂ Becomes (Target.uses bindings (.function d))
      (x.result.types ++ argumentTypes x.args) := by
  obtain ⟨-, result, args, hresult, hargs, rfl⟩ := eq_of_instantiate h
  exact (Substitution.substituted_callable hresult hargs).becomes_header

theorem VariableDecl.types_of_instantiate {d x : VariableDecl} {bindings : List TypeExpr}
    {newName : Option String} (h : d.instantiate bindings newName = .ok x) :
    List.Forall₂ Becomes (headerUses d.template bindings [d.type]) [x.type] := by
  obtain ⟨-, type, htype, rfl⟩ := eq_of_instantiate h
  exact .cons (.bound htype) .nil

theorem ForwardDecl.types_of_instantiate {d x : ForwardDecl} {bindings : List TypeExpr}
    {newName : Option String} (h : d.instantiate bindings newName = .ok x) :
    List.Forall₂ Becomes (Target.uses bindings (.forward d)) x.parent.toList := by
  obtain ⟨parent, hparent, h⟩ := except_bind_ok h
  cases h
  rw [Target.uses]
  cases ht : d.template with
  | none =>
    rw [instanceParent, ht] at hparent
    cases hparent
    rw [if_neg (by simp)]
    exact becomes_copied _
  | some t =>
    rw [instanceParent, ht] at hparent
    obtain ⟨σ, hσ, hparent⟩ := except_bind_ok hparent
    obtain ⟨-, rfl⟩ := Substitution.bind_ok hσ
    rw [if_pos (by simp)]
    have hsub := Substitution.substituted_option (ok_of_resolved hparent)
    exact @Substituted.becomes_header (some t) bindings _ _ hsub

theorem Target.types_of_instantiate {t : Target} {x : Declaration} {bindings : List TypeExpr}
    {newName : String} (h : t.instantiate bindings newName = .ok x) :
    List.Forall₂ Becomes (t.uses bindings) x.types := by
  cases t with
  | cls d =>
    obtain ⟨y, hy, rfl⟩ := except_map_ok h
    exact ClassDecl.types_of_instantiate hy
  | function d =>
    obtain ⟨y, hy, rfl⟩ := except_map_ok h
    exact FunctionDecl.types_of_instantiate hy
  | forward d =>
    obtain ⟨y, hy, rfl⟩ := except_map_ok h
    exact ForwardDecl.types_of_instantiate hy

/-! ## Whole files -/

/-- The instances that a header lists, each with its bindings. -/
theorem Listed.forall₂ {α : Type} {make : List TypeExpr → Except ExpansionError α}
    {template : Option Template} {xs : List α} (h : Listed make template xs) :
    List.Forall₂ (fun bindings x => make bindings = .ok x) (combinationsOf template) xs := by
  cases template with
  | none =>
    obtain ⟨x, hx, rfl⟩ := h
    exact .cons hx .nil
  | some t => exact h

theorem contentTypes_eq_flatMap (ds : Content) : contentTypes ds = ds.flatMap Declaration.types := by
  induction ds with
  | nil => rfl
  | cons d ds ih => simp [contentTypes, ih]

/-- Types of instances, put together over all combinations. -/
theorem Listed.becomes {α : Type} {make : List TypeExpr → Except ExpansionError α}
    {template : Option Template} {xs : List α} {uses : List TypeExpr → List TypeUse}
    {wrap : α → Declaration} (h : Listed make template xs)
    (hmake : ∀ bindings x, make bindings = .ok x →
      List.Forall₂ Becomes (uses bindings) (wrap x).types) :
    List.Forall₂ Becomes ((combinationsOf template).flatMap uses)
      (contentTypes (xs.map wrap)) := by
  rw [contentTypes_eq_flatMap, List.flatMap_map]
  exact List.rel_flatMap h.forall₂ fun bindings x hx => hmake bindings x hx

theorem TypedefIndex.target_of_resolve {index : TypedefIndex} {d : TypedefDecl} {t : Target}
    (h : index.resolve d.namespaces (d.target.namespaces ++ [d.target.name]) = [t]) :
    index.target d = .ok t := by
  rw [target, h]

mutual

/-- The types in the block of a declaration come from the declaration. -/
theorem types_of_block {index : TypedefIndex} (d : Declaration) {block : Content}
    (h : Block index d block) : List.Forall₂ Becomes (d.uses index) (contentTypes block) := by
  cases d with
  | inclusion d =>
    cases h
    exact .nil
  | enumeration d =>
    cases h
    exact .nil
  | space name content span =>
    cases h with
    | space hinner =>
      have htypes := types_of_blocks content hinner
      rw [contentTypes, contentTypes, List.append_nil]
      exact htypes
  | cls d =>
    cases h with
    | cls hxs => exact hxs.becomes fun _ _ => ClassDecl.types_of_instantiate
  | function d =>
    cases h with
    | function hxs => exact hxs.becomes fun _ _ => FunctionDecl.types_of_instantiate
  | var d =>
    cases h with
    | var hxs => exact hxs.becomes fun _ _ => VariableDecl.types_of_instantiate
  | forward d =>
    cases h with
    | plainForward ht =>
      simpa [Declaration.uses, combinationsOf, Target.uses, contentTypes, Declaration.types, ht]
        using becomes_copied d.parent.toList
    | forward ht hxs =>
      rw [Declaration.uses, ht]
      exact hxs.becomes fun _ _ => ForwardDecl.types_of_instantiate
  | typedef d =>
    cases h with
    | @typedef _ target x ht hx =>
      have htarget := TypedefIndex.target_of_resolve ht
      have htypes := Target.types_of_instantiate hx
      simpa [Declaration.uses, htarget, Except.toOption, contentTypes] using htypes

/-- The types in the blocks of several declarations come from them, in order. -/
theorem types_of_blocks {index : TypedefIndex} (ds : Content) {out : Content}
    (h : Blocks index ds out) : List.Forall₂ Becomes (contentUses index ds) (contentTypes out) := by
  cases ds with
  | nil =>
    cases h
    exact .nil
  | cons d ds =>
    cases h with
    | cons hd hds =>
      rw [contentTypes_eq_flatMap, List.flatMap_append, ← contentTypes_eq_flatMap,
        ← contentTypes_eq_flatMap]
      exact List.rel_append (types_of_block d hd) (types_of_blocks ds hds)

end

/-- The types in an expanded file are those of the file in order, once for each instance, and each
of them is copied or substituted. -/
theorem Interface.types_of_instantiate {policy : CollisionPolicy} {m out : Interface}
    (h : m.instantiate policy = .ok out) : List.Forall₂ Becomes m.uses out.types := by
  obtain ⟨content, hc, rfl⟩ := except_map_ok h
  have hblocks := blocks_of_expandContent _ [] m.content (Expansion.outcome_of_settle hc)
  exact types_of_blocks m.content hblocks

/-! ## Where uses stand -/

mutual

/-- A use in a declaration is a use in one that stands in it or is it, and that is no namespace. -/
theorem Declaration.exists_of_mem_uses {index : TypedefIndex} (d : Declaration) {u : TypeUse}
    (h : u ∈ d.uses index) : ∃ path d', Content.Has [d] path d' ∧ u ∈ d'.uses index ∧
      ∀ name content span, d' ≠ .space name content span := by
  cases d with
  | space name content span =>
    obtain ⟨path, d', hd', hu, hleaf⟩ := exists_of_mem_contentUses content h
    exact ⟨name :: path, d', .inside List.mem_cons_self hd', hu, hleaf⟩
  | _ => exact ⟨[], _, .here List.mem_cons_self, h, nofun⟩

/-- A use in several declarations. -/
theorem exists_of_mem_contentUses {index : TypedefIndex} (ds : Content) {u : TypeUse}
    (h : u ∈ contentUses index ds) : ∃ path d', Content.Has ds path d' ∧ u ∈ d'.uses index ∧
      ∀ name content span, d' ≠ .space name content span := by
  cases ds with
  | nil => cases h
  | cons d ds =>
    rcases List.mem_append.1 h with h | h
    · obtain ⟨path, d', hd', hu⟩ := d.exists_of_mem_uses h
      exact ⟨path, d', hd'.mono (by simp), hu⟩
    · obtain ⟨path, d', hd', hu⟩ := exists_of_mem_contentUses ds h
      exact ⟨path, d', hd'.mono (by simp), hu⟩

end

/-! ## Uses that can be written -/

/-- All types that are bound have names, and so has the class. -/
structure Substitution.Named (σ : Substitution) : Prop where
  params : ∀ q ∈ σ.params, q.2.typename ≠ .simple ""
  this : ∀ cls ∈ σ.this, cls ≠ .simple ""

/-- The type can be written, and what is bound in it has names. -/
inductive TypeUse.Written : TypeUse → Prop
  | copied {inArgs : Bool} {t : TypeExpr} (ht : t.WellFormed inArgs) : Written (.copied t)
  | bound {σ : Substitution} {inArgs : Bool} {t : TypeExpr} (hσ : σ.Named)
      (ht : t.WellFormed inArgs) : Written (.bound σ t)

theorem Substitution.Named.extend {σ : Substitution} (h : σ.Named) (names : List String)
    {types : List TypeExpr} (ht : ∀ t ∈ types, t.typename ≠ .simple "") :
    (σ.extend names types).Named := by
  constructor
  · intro q hq
    rcases List.mem_append.1 hq with hq | hq
    · exact h.params q hq
    · exact ht q.2 (List.of_mem_zip hq).2
  · exact h.this

theorem Substitution.named_empty : empty.Named := ⟨nofun, nofun⟩

theorem typename_ne_of_wellFormed {inArgs : Bool} {ts : List TypeExpr}
    (h : ∀ t ∈ ts, t.WellFormed inArgs) : ∀ t ∈ ts, t.typename ≠ .simple "" :=
  fun t ht => (h t ht).typename_ne

theorem written_of_mem_headerUses {template : Option Template} {bindings ts : List TypeExpr}
    (hb : ∀ b ∈ bindings, b.WellFormed true) (hts : ∀ t ∈ ts, ∃ inArgs, t.WellFormed inArgs) :
    ∀ u ∈ headerUses template bindings ts, u.Written := by
  intro u hu
  obtain ⟨t, ht, rfl⟩ := List.mem_map.1 hu
  obtain ⟨inArgs, hwf⟩ := hts t ht
  have hnamed := Substitution.named_empty.extend (paramNames template) (typename_ne_of_wellFormed hb)
  exact .bound hnamed hwf

/-- Classes have names. -/
theorem IsClassName.ne_empty {name : String} (h : IsClassName name) : name ≠ "" := by
  have hwf := h.typename false none
  intro he
  rw [he] at hwf
  exact hwf.typename_ne rfl

namespace ClassDecl

theorem WellFormed.named_bound {ns : List String} {c : ClassDecl} (hc : c.WellFormed ns)
    {bindings : List TypeExpr} (hb : ∀ b ∈ bindings, b.WellFormed true) :
    (c.bound bindings).Named := by
  constructor
  · have hnamed := Substitution.named_empty.extend (paramNames c.template)
      (typename_ne_of_wellFormed hb)
    exact hnamed.params
  · intro cls hcls he
    cases hcls
    have hname := congrArg Typename.name he
    rw [Typename.ofPath_name] at hname
    exact hc.isClassName.ne_empty hname

theorem WellFormed.written {ns : List String} {c : ClassDecl} (hc : c.WellFormed ns)
    {bindings : List TypeExpr} (hb : ∀ b ∈ bindings, b.WellFormed true) :
    ∀ u ∈ Target.uses bindings (.cls c), u.Written := by
  intro u hu
  obtain ⟨s, hs, rfl⟩ := List.mem_map.1 hu
  obtain ⟨htype, names, types, hbound, htypes, -⟩ := mem_uses hs
  obtain ⟨inArgs, hwf⟩ := hc.types s.2 htype
  have hnamed : s.1.Named := by
    rw [hbound]
    apply (hc.named_bound hb).extend
    -- what the header of a member lists can be written
    intro b hmem
    obtain ⟨m, hm, t, ht, q, hq, hchoice⟩ := htypes b hmem
    obtain ⟨head, hmember⟩ := hc.member hm
    exact (((hmember.template t ht).params q hq).choices b hchoice).typename_ne
  exact .bound hnamed hwf

end ClassDecl

/-- The uses in a target that can be written, with bindings that can be written. -/
theorem Target.written {d : Declaration} {t : Target} (h : Target.ofDeclaration? d = some t)
    {ns : List String} (hd : d.WellFormed ns) {bindings : List TypeExpr}
    (hb : ∀ b ∈ bindings, b.WellFormed true) : ∀ u ∈ t.uses bindings, u.Written := by
  cases hd with
  | inclusion => cases h
  | space => cases h
  | enumeration => cases h
  | var => cases h
  | typedef => cases h
  | cls hc =>
    cases h
    exact hc.written hb
  | function _ hr ha _ =>
    cases h
    exact written_of_mem_headerUses hb
      (List.forall_mem_append.2 ⟨hr.types, argumentTypes_wellFormed ha⟩)
  | @forward _ typename parent isVirtual template span _ hp _ =>
    cases h
    have hparent : ∀ t ∈ parent.toList, ∃ inArgs, t.WellFormed inArgs :=
      fun t ht => ⟨_, hp t (Option.mem_toList.1 ht)⟩
    rw [uses]
    split
    · exact written_of_mem_headerUses hb hparent
    · intro u hu
      obtain ⟨t, ht, rfl⟩ := List.mem_map.1 hu
      obtain ⟨inArgs, hwf⟩ := hparent t ht
      exact .copied hwf

/-- The uses in what a declaration stands for by itself. -/
theorem written_of_mem_combinations {template : Option Template}
    (ht : ∀ t ∈ template, t.WellFormed) {uses : List TypeExpr → List TypeUse}
    (h : ∀ bindings : List TypeExpr, (∀ b ∈ bindings, b.WellFormed true) →
      ∀ u ∈ uses bindings, u.Written) :
    ∀ u ∈ (combinationsOf template).flatMap uses, u.Written := by
  intro u hu
  obtain ⟨bindings, hb, hu⟩ := List.mem_flatMap.1 hu
  exact h bindings (Template.WellFormed.combinations ht bindings hb) u hu

/-- The uses of a declaration that is no namespace, in a file that can be written. -/
theorem written_of_mem_declaration {content : Content} (hcontent : ∀ d ∈ content, d.WellFormed [])
    {path : List String} {d : Declaration} (hd : d.WellFormed path)
    (hleaf : ∀ name inner span, d ≠ .space name inner span) :
    ∀ u ∈ d.uses (.ofContent content), u.Written := by
  cases hd with
  | inclusion => exact nofun
  | enumeration => exact nofun
  | space => exact absurd rfl (hleaf _ _ _)
  | cls hc => exact written_of_mem_combinations hc.template fun bindings hb => hc.written hb
  | function hn hr ha ht =>
    apply written_of_mem_combinations ht
    exact fun bindings hb => Target.written rfl (.function hn hr ha ht) hb
  | forward hn hp ht =>
    apply written_of_mem_combinations ht
    exact fun bindings hb => Target.written rfl (.forward hn hp ht) hb
  | var htype _ _ ht =>
    apply written_of_mem_combinations ht
    intro bindings hb
    apply written_of_mem_headerUses hb
    intro t hmem
    rw [List.mem_singleton.1 hmem]
    exact ⟨_, htype⟩
  | typedef htype =>
    intro u hu
    rw [Declaration.uses, List.mem_flatMap] at hu
    obtain ⟨t, ht, hu⟩ := hu
    have htarget := except_ok_of_toOption (Option.mem_toList.1 ht)
    obtain ⟨place, d', hd', hof⟩ := TypedefIndex.has_of_target htarget
    exact Target.written hof (hd'.wellFormed hcontent) htype.args u hu

/-- In a file that is read, the types in uses can be written, and what is bound in them has
names. -/
theorem Interface.written_of_mem_uses {source : String} {m : Interface}
    (hm : parse source = .ok m) : ∀ u ∈ m.uses, u.Written := by
  intro u hu
  have hwf := wellFormed_of_parse hm
  obtain ⟨path, d, hd, hu, hleaf⟩ := exists_of_mem_contentUses m.content hu
  exact written_of_mem_declaration hwf (hd.wellFormed hwf) hleaf u hu

end TemplateIdl
