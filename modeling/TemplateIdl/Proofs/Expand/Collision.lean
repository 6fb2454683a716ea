import TemplateIdl.Proofs.Decl.Scopes
import TemplateIdl.Proofs.Expand.Blocks
import TemplateIdl.Proofs.Expand.Describe
import TemplateIdl.Proofs.Expand.Instance
import TemplateIdl.Proofs.Expand.Product
import TemplateIdl.Proofs.Expand.Registry

/-!
# Collision — classes that share a generated name

The registry compares descriptions, and a description leaves something out: the namespaces of
the template and the qualifiers of the bindings.

* `ClassDecl.StandsIn`, a class in a namespace, where namespaces of one name are one namespace;
* `ClassDecl.IsInstance` and `Logged`, what is known of the classes of an expanded file: what they
  were made from, and that their names are in the log;
* `accounted_expandContent`, all classes of an expanded file are such classes;
* `cppType_eq_iff_of_name_eq`, so under the strict policy, classes that share a name stand for one
  C++ type exactly if they agree in what descriptions leave out.
-/

namespace TemplateIdl

/-! ## Classes and where they stand -/

/-- The class stands in the namespace `path` of some declarations. Namespaces of one name count as
one namespace. -/
inductive ClassDecl.StandsIn (c : ClassDecl) : List String → Content → Prop
  | here {ds : Content} (h : .cls c ∈ ds) : StandsIn c [] ds
  | inside {ds inner : Content} {name : String} {path : List String} {span : Span}
      (h : .space name inner span ∈ ds) (hc : StandsIn c path inner) : StandsIn c (name :: path) ds

/-- It is one of the declarations of the namespace. -/
theorem ClassDecl.StandsIn.has {c : ClassDecl} {path : List String} {ds : Content}
    (h : c.StandsIn path ds) : ds.Has path (.cls c) := by
  induction h with
  | here h => exact .here h
  | inside h _ ih => exact .inside h ih

namespace ClassDecl

/-- The types that the class was made with. -/
def bindings (c : ClassDecl) : List TypeExpr :=
  match c.provenance with
  | some p => p.bindings
  | none => []

/-- The C++ type is the generic name with the bindings. -/
theorem cppType_eq (c : ClassDecl) : c.cppType = .ofPath c.namespaces c.genericName c.bindings := by
  unfold cppType genericName bindings
  cases c.provenance with
  | none => rfl
  | some p => rfl

/-- A class that can be written, inside namespaces that can be written. -/
def IsWritten (c : ClassDecl) : Prop :=
  ∃ ns, (∀ n ∈ ns, isIdentifier n = true) ∧ c.WellFormed ns

/-- The class was made from one that can be written with bindings that can be written. -/
structure IsInstance (c : ClassDecl) : Prop where
  genericName : IsClassName c.genericName
  bindings : ∀ t ∈ c.bindings, t.WellFormed true
  namespaces : ∀ n ∈ c.namespaces, isIdentifier n = true

end ClassDecl

/-! ## What classes are made from -/

namespace ClassDecl

theorem WellFormed.isClassName {ns : List String} {c : ClassDecl} (h : c.WellFormed ns) :
    IsClassName c.name := by
  obtain ⟨head, ms, span, hhead, -, rfl⟩ := h
  exact hhead.name

theorem WellFormed.namespaces_eq {ns : List String} {c : ClassDecl} (h : c.WellFormed ns) :
    c.namespaces = ns := by
  obtain ⟨head, ms, span, hhead, -, rfl⟩ := h
  exact hhead.namespaces

theorem WellFormed.template {ns : List String} {c : ClassDecl} (h : c.WellFormed ns) :
    ∀ t ∈ c.template, t.WellFormed := by
  obtain ⟨head, ms, span, hhead, -, rfl⟩ := h
  exact hhead.template

/-- An instance is known by the generic name and the bindings, provided that a class without a
header keeps its name. -/
theorem generic_of_expand {span : Span} {c x : ClassDecl} {bindings : List TypeExpr}
    {newName : Option String} (h : (c.expand span bindings newName).outcome = .ok x)
    (hnew : newName = none ∨ bindings ≠ []) :
    x.genericName = c.name ∧ x.bindings = bindings := by
  have hparts := expandsTo_of_expand h
  have hprovenance := hparts.provenance
  cases ht : c.template with
  | some t =>
    rw [ht] at hprovenance
    simp [genericName, ClassDecl.bindings, hprovenance, provenanceOf]
  | none =>
    have hlength := hparts.arity
    rw [ht] at hlength hprovenance
    -- without a header there are no bindings, so there is no new name either
    have hnil : bindings = [] := List.eq_nil_of_length_eq_zero hlength.symm
    have hnone : newName = none := hnew.resolve_right (absurd hnil)
    subst hnil hnone
    simp [genericName, ClassDecl.bindings, hprovenance, provenanceOf, hparts.name, instanceName,
      generatedName]

/-- Instances of a class that can be written, with bindings that can be written. -/
theorem IsWritten.isInstance {span : Span} {c x : ClassDecl} {bindings : List TypeExpr}
    {newName : Option String} (hc : c.IsWritten)
    (h : (c.expand span bindings newName).outcome = .ok x)
    (hnew : newName = none ∨ bindings ≠ []) (hb : ∀ t ∈ bindings, t.WellFormed true) :
    x.IsInstance := by
  obtain ⟨ns, hns, hwf⟩ := hc
  obtain ⟨hgeneric, hbindings⟩ := generic_of_expand h hnew
  have hspaces := (expandsTo_of_expand h).namespaces
  constructor
  · rw [hgeneric]
    exact hwf.isClassName
  · rw [hbindings]
    exact hb
  · rw [hspaces, hwf.namespaces_eq]
    exact hns

end ClassDecl

/-- What a declaration binds by itself is listed in its header. -/
theorem exists_choices_of_mem_combinations {template : Option Template}
    {bindings : List TypeExpr} (h : bindings ∈ combinationsOf template) :
    ∀ t ∈ bindings, ∃ header ∈ template, ∃ q ∈ header.params, t ∈ q.choices := by
  intro t ht
  cases template with
  | none =>
    rw [combinationsOf, List.mem_singleton] at h
    rw [h] at ht
    exact absurd ht List.not_mem_nil
  | some header =>
    obtain ⟨choices, hc, hmem⟩ := mem_of_mem_product h t ht
    obtain ⟨q, hq, rfl⟩ := List.mem_map.1 hc
    exact ⟨header, rfl, q, hq, hmem⟩

/-- The bindings that a header lists are as many as its parameters. -/
theorem length_of_mem_combinations {template : Option Template} {bindings : List TypeExpr}
    (h : bindings ∈ combinationsOf template) :
    (paramNames template).length = bindings.length := by
  cases template with
  | none =>
    rw [combinationsOf, List.mem_singleton] at h
    rw [h]
    rfl
  | some t =>
    rw [length_of_mem_product h, paramNames, Template.names, Template.choices, List.length_map,
      List.length_map]

/-- The bindings that a header lists can be written. -/
theorem Template.WellFormed.combinations {template : Option Template}
    (h : ∀ t ∈ template, t.WellFormed) :
    ∀ bindings ∈ combinationsOf template, ∀ t ∈ bindings, t.WellFormed true := by
  intro bindings hb t ht
  obtain ⟨header, hheader, q, hq, hmem⟩ := exists_choices_of_mem_combinations hb t ht
  have hwf := ((h header hheader).params q hq).choices t hmem
  rw [← hwf.ofTypename_typename]
  exact hwf.typename _ _

/-! ## Targets of typedefs -/

theorem identifiers_append {scope : List String} {name : String}
    (hs : ∀ n ∈ scope, isIdentifier n = true) (hn : isIdentifier name = true) :
    ∀ n ∈ scope ++ [name], isIdentifier n = true := by
  rw [List.forall_mem_append]
  exact ⟨hs, by simpa using hn⟩

namespace TypedefIndex

/-- All classes that typedefs can name can be written. -/
def ClassesWritten (x : TypedefIndex) : Prop :=
  ∀ e ∈ x.entries, ∀ c, Target.cls c ∈ e.2 → c.IsWritten

theorem mem_insertEntry {path : List String} {target t : Target}
    {es : List (List String × List Target)} {e : List String × List Target}
    (he : e ∈ insertEntry path target es) (ht : t ∈ e.2) :
    t = target ∨ ∃ e' ∈ es, t ∈ e'.2 := by
  induction es with
  | nil =>
    rw [insertEntry, List.mem_singleton] at he
    rw [he, List.mem_singleton] at ht
    exact .inl ht
  | cons e' es ih =>
    unfold insertEntry at he
    split at he
    · rcases List.mem_cons.1 he with rfl | he
      · rcases List.mem_append.1 ht with ht | ht
        · exact .inr ⟨e', List.mem_cons_self, ht⟩
        · exact .inl (List.mem_singleton.1 ht)
      · exact .inr ⟨e, List.mem_cons_of_mem _ he, ht⟩
    · rcases List.mem_cons.1 he with rfl | he
      · exact .inr ⟨e, List.mem_cons_self, ht⟩
      · rcases ih he with h | ⟨e'', he'', h⟩
        · exact .inl h
        · exact .inr ⟨e'', List.mem_cons_of_mem _ he'', h⟩

theorem ClassesWritten.insert {x : TypedefIndex} (hx : x.ClassesWritten) {path : List String}
    {target : Target} (ht : ∀ c, target = .cls c → c.IsWritten) :
    (x.insert path target).ClassesWritten := by
  intro e he c hc
  rcases mem_insertEntry he hc with h | ⟨e', he', h⟩
  · exact ht c h.symm
  · exact hx e' he' c h

mutual

theorem classesWritten_insertDeclaration {x : TypedefIndex} (hx : x.ClassesWritten)
    {scope : List String} (hs : ∀ n ∈ scope, isIdentifier n = true) (d : Declaration)
    (hd : d.WellFormed scope) : (x.insertDeclaration scope d).ClassesWritten := by
  cases d with
  | inclusion _ => exact hx
  | enumeration _ => exact hx
  | var _ => exact hx
  | typedef _ => exact hx
  | space name content span =>
    cases hd with
    | space hn hc =>
      exact classesWritten_insertContent hx (identifiers_append hs hn) content hc
  | cls c =>
    cases hd with
    | cls hc =>
      refine hx.insert ?_
      intro c' he
      cases he
      exact ⟨scope, hs, hc⟩
  | function _ => exact hx.insert nofun
  | forward _ => exact hx.insert nofun

theorem classesWritten_insertContent {x : TypedefIndex} (hx : x.ClassesWritten)
    {scope : List String} (hs : ∀ n ∈ scope, isIdentifier n = true) (ds : Content)
    (hds : ∀ d ∈ ds, d.WellFormed scope) : (x.insertContent scope ds).ClassesWritten := by
  cases ds with
  | nil => exact hx
  | cons d ds =>
    rw [List.forall_mem_cons] at hds
    have hd := classesWritten_insertDeclaration hx hs d hds.1
    exact classesWritten_insertContent hd hs ds hds.2

end

/-- All classes in the index of a file that can be written can be written. -/
theorem classesWritten_ofContent {m : Interface} (h : m.WellFormed) :
    (ofContent m.content).ClassesWritten := by
  have hempty : empty.ClassesWritten := fun _ he => absurd he List.not_mem_nil
  exact classesWritten_insertContent hempty (by simp) m.content h

/-- What a path names stands in the index. -/
theorem mem_of_mem_resolveIn {x : TypedefIndex} {path : List String} {scopes : List (List String)}
    {t : Target} (h : t ∈ x.resolveIn path scopes) : ∃ e ∈ x.entries, t ∈ e.2 := by
  induction scopes with
  | nil => exact absurd h List.not_mem_nil
  | cons scope scopes ih =>
    unfold resolveIn at h
    split at h
    · next found hf =>
      obtain ⟨e, he, rfl⟩ := Option.map_eq_some_iff.1 hf
      refine ⟨e, List.mem_of_find?_eq_some he, ?_⟩
      unfold visible at h
      split at h
      · exact List.mem_of_mem_filter h
      · exact h
    · exact ih h

theorem ClassesWritten.target {x : TypedefIndex} (hx : x.ClassesWritten) {d : TypedefDecl}
    {c : ClassDecl} (h : x.target d = .ok (.cls c)) : c.IsWritten := by
  have hone : Target.cls c ∈ x.resolve d.namespaces (d.target.namespaces ++ [d.target.name]) := by
    rw [resolve_of_target h]
    exact List.mem_singleton_self _
  obtain ⟨e, he, hc⟩ := mem_of_mem_resolveIn hone
  exact hx e he c hc

end TypedefIndex

/-! ## The classes of an expanded file -/

/-- The name of a class in `scope` is in a log, with the description of the class. -/
def Logged (log : List Registration) (scope : List String) (c : ClassDecl) : Prop :=
  ∃ span, ⟨scope, c.name, describe c.genericName c.bindings, span⟩ ∈ log

/-- All classes of some declarations in `scope` are instances whose names are in a log. -/
def Accounted (log : List Registration) (scope : List String) (ds : Content) : Prop :=
  ∀ path c, c.StandsIn path ds → c.IsInstance ∧ Logged log (scope ++ path) c

namespace Accounted

variable {log log' : List Registration} {scope : List String} {ds es : Content}

theorem nil : Accounted log scope [] := by
  intro path c h
  cases h with
  | here h => exact absurd h List.not_mem_nil
  | inside h _ => exact absurd h List.not_mem_nil

theorem append (hd : Accounted log scope ds) (he : Accounted log scope es) :
    Accounted log scope (ds ++ es) := by
  intro path c h
  cases h with
  | here h =>
    rcases List.mem_append.1 h with h | h
    · exact hd [] c (.here h)
    · exact he [] c (.here h)
  | inside h hc =>
    rcases List.mem_append.1 h with h | h
    · exact hd _ c (.inside h hc)
    · exact he _ c (.inside h hc)

theorem mono (h : Accounted log scope ds) (hlog : ∀ r ∈ log, r ∈ log') :
    Accounted log' scope ds := by
  intro path c hc
  obtain ⟨hinstance, span, hr⟩ := h path c hc
  exact ⟨hinstance, span, hlog _ hr⟩

/-- The classes of a namespace are those of its content. -/
theorem space {name : String} {inner : Content} {span : Span}
    (h : Accounted log (scope ++ [name]) inner) :
    Accounted log scope [.space name inner span] := by
  intro path c hc
  cases hc with
  | here hc => cases List.mem_singleton.1 hc
  | inside hmem hc =>
    cases List.mem_singleton.1 hmem
    have hinner := h _ c hc
    rw [List.append_assoc] at hinner
    exact hinner

/-- Where there is no namespace, only the classes themselves count. -/
theorem of_flat (hflat : ∀ d ∈ ds, ∀ name inner span, d ≠ .space name inner span)
    (hcls : ∀ c, .cls c ∈ ds → c.IsInstance ∧ Logged log scope c) : Accounted log scope ds := by
  intro path c h
  cases h with
  | here h =>
    rw [List.append_nil]
    exact hcls c h
  | inside h _ => exact absurd rfl (hflat _ h _ _ _)

end Accounted

/-- The instances of a header come from bindings that it lists, and their names are in the log. -/
theorem mem_of_expandListed {scope : List String} {d x : Declaration}
    {template : Option Template} {make : List TypeExpr → Expansion Declaration} {block : Content}
    (h : (expandListed scope d template make).outcome = .ok block) (hx : x ∈ block) :
    ∃ bindings ∈ combinationsOf template, (make bindings).outcome = .ok x ∧
      ⟨scope, x.name, describe d.name bindings, d.span⟩ ∈
        (expandListed scope d template make).log := by
  obtain ⟨bindings, hb, hout, hlog⟩ := Expansion.forEach_log h hx
  obtain ⟨y, hy, hout⟩ := Expansion.outcome_bind_ok hout
  obtain ⟨u, hu, rfl⟩ := Expansion.outcome_wrap_ok hout
  refine ⟨bindings, hb, hy, hlog _ ?_⟩
  rw [Expansion.mem_log_bind hy, Expansion.mem_log_bind hu]
  exact .inr (.inl (List.mem_singleton_self _))

/-- Instances that are neither classes nor namespaces have nothing to account for. -/
theorem accounted_listed {log : List Registration} {scope : List String} {d : Declaration}
    {template : Option Template} {make : List TypeExpr → Expansion Declaration} {block : Content}
    (h : (expandListed scope d template make).outcome = .ok block)
    (hmake : ∀ bindings x, (make bindings).outcome = .ok x →
      (∀ c, x ≠ .cls c) ∧ ∀ name inner span, x ≠ .space name inner span) :
    Accounted log scope block := by
  refine .of_flat ?_ ?_
  · intro x hx
    obtain ⟨bindings, -, hout, -⟩ := mem_of_expandListed h hx
    exact (hmake bindings x hout).2
  · intro c hc
    obtain ⟨bindings, -, hout, -⟩ := mem_of_expandListed h hc
    exact absurd rfl ((hmake bindings _ hout).1 c)

/-- The instances of a class. -/
theorem accounted_cls {scope : List String} {d : ClassDecl} (hd : d.WellFormed scope)
    (hs : ∀ n ∈ scope, isIdentifier n = true) {block : Content} {make}
    (hmake : make = fun bindings => do
      let x ← d.expand d.span bindings none
      pure (Declaration.cls x))
    (h : (expandListed scope (.cls d) d.template make).outcome = .ok block) :
    Accounted (expandListed scope (.cls d) d.template make).log scope block := by
  subst hmake
  refine .of_flat ?_ ?_
  · intro x hx
    obtain ⟨bindings, -, hout, -⟩ := mem_of_expandListed h hx
    obtain ⟨y, -, rfl⟩ := Expansion.outcome_wrap_ok hout
    exact nofun
  · intro c hc
    obtain ⟨bindings, hb, hout, hlog⟩ := mem_of_expandListed h hc
    obtain ⟨y, hy, hcy⟩ := Expansion.outcome_wrap_ok hout
    cases hcy
    have hwritten := Template.WellFormed.combinations hd.template bindings hb
    obtain ⟨hgeneric, hbindings⟩ := ClassDecl.generic_of_expand hy (.inl rfl)
    refine ⟨ClassDecl.IsWritten.isInstance ⟨scope, hs, hd⟩ hy (.inl rfl) hwritten, d.span, ?_⟩
    rw [hgeneric, hbindings]
    exact hlog

/-- The instance of a typedef. It is registered where the typedef stands, which need not be where
the class stands. -/
theorem accounted_typedef {index : TypedefIndex} (hindex : index.ClassesWritten)
    {scope : List String} {d : TypedefDecl} (hd : Declaration.WellFormed scope (.typedef d))
    {x : Declaration} (h : (expandTypedef index d).outcome = .ok x) :
    Accounted (expandTypedef index d).log scope [x] := by
  obtain ⟨target, ht, h⟩ := Expansion.outcome_bind_ok h
  obtain ⟨y, hy, h⟩ := Expansion.outcome_bind_ok h
  obtain ⟨u, hu, rfl⟩ := Expansion.outcome_wrap_ok h
  have hlog : ⟨d.namespaces, d.newName, describe target.name d.target.args, d.span⟩ ∈
      (expandTypedef index d).log := by
    rw [expandTypedef, Expansion.mem_log_bind ht, Expansion.mem_log_bind hy,
      Expansion.mem_log_bind hu]
    exact .inr (.inr (.inl (List.mem_singleton_self _)))
  cases target with
  | function f =>
    obtain ⟨z, -, rfl⟩ := Expansion.outcome_wrap_ok hy
    exact .of_flat (by simp) (by simp)
  | forward f =>
    obtain ⟨z, -, rfl⟩ := Expansion.outcome_wrap_ok hy
    exact .of_flat (by simp) (by simp)
  | cls c =>
    obtain ⟨z, hz, rfl⟩ := Expansion.outcome_wrap_ok hy
    refine .of_flat (by simp) ?_
    intro c' hc'
    cases List.mem_singleton.1 hc'
    cases hd with
    | @typedef _ type newName span htype hargs =>
      have hne : type.args ≠ [] := by simpa [TypeExpr.isTemplated] using hargs
      obtain ⟨hgeneric, hbindings⟩ := ClassDecl.generic_of_expand hz (.inr hne)
      have hname := (ClassDecl.expandsTo_of_expand hz).name
      refine ⟨(hindex.target ht).isInstance hz (.inr hne) htype.args, span, ?_⟩
      rw [hname, hgeneric, hbindings]
      exact hlog

mutual

theorem accounted_expandDeclaration {index : TypedefIndex} (hindex : index.ClassesWritten)
    {scope : List String} (hs : ∀ n ∈ scope, isIdentifier n = true) (d : Declaration)
    (hd : d.WellFormed scope) {block : Content}
    (h : (expandDeclaration index scope d).outcome = .ok block) :
    Accounted (expandDeclaration index scope d).log scope block := by
  cases d with
  | inclusion d =>
    cases Expansion.outcome_pure_ok h
    exact .of_flat (by simp) (by simp)
  | enumeration d =>
    cases Expansion.outcome_pure_ok h
    exact .of_flat (by simp) (by simp)
  | space name content span =>
    obtain ⟨inner, hinner, rfl⟩ := Expansion.outcome_wrap_ok h
    cases hd with
    | space hn hc =>
      have hcontent := accounted_expandContent hindex (identifiers_append hs hn) content hc hinner
      -- a namespace registers nothing by itself
      refine .space (hcontent.mono ?_)
      intro r hr
      rw [expandDeclaration, Expansion.mem_log_bind hinner]
      exact .inl hr
  | cls d =>
    cases hd with
    | cls hd => exact accounted_cls hd hs rfl h
  | function d =>
    refine accounted_listed h ?_
    intro bindings x hx
    obtain ⟨y, -, rfl⟩ := Expansion.outcome_wrap_ok hx
    exact ⟨nofun, nofun⟩
  | var d =>
    refine accounted_listed h ?_
    intro bindings x hx
    obtain ⟨y, -, rfl⟩ := Expansion.outcome_wrap_ok hx
    exact ⟨nofun, nofun⟩
  | forward d =>
    rw [expandDeclaration] at h ⊢
    split at h
    · refine accounted_listed h ?_
      intro bindings x hx
      obtain ⟨y, -, rfl⟩ := Expansion.outcome_wrap_ok hx
      exact ⟨nofun, nofun⟩
    · cases Expansion.outcome_pure_ok h
      exact .of_flat (by simp) (by simp)
  | typedef d =>
    obtain ⟨x, hx, rfl⟩ := Expansion.outcome_wrap_ok h
    refine (accounted_typedef hindex hd hx).mono ?_
    intro r hr
    rw [expandDeclaration, Expansion.mem_log_bind hx]
    exact .inl hr

theorem accounted_expandContent {index : TypedefIndex} (hindex : index.ClassesWritten)
    {scope : List String} (hs : ∀ n ∈ scope, isIdentifier n = true) (ds : Content)
    (hds : ∀ d ∈ ds, d.WellFormed scope) {out : Content}
    (h : (expandContent index scope ds).outcome = .ok out) :
    Accounted (expandContent index scope ds).log scope out := by
  cases ds with
  | nil =>
    cases Expansion.outcome_pure_ok h
    exact .nil
  | cons d ds =>
    obtain ⟨here, hhere, h⟩ := Expansion.outcome_bind_ok h
    obtain ⟨rest, hrest, rfl⟩ := Expansion.outcome_wrap_ok h
    rw [List.forall_mem_cons] at hds
    have hblock := accounted_expandDeclaration hindex hs d hds.1 hhere
    have hbehind := accounted_expandContent hindex hs ds hds.2 hrest
    refine .append (hblock.mono ?_) (hbehind.mono ?_)
    · intro r hr
      rw [expandContent, Expansion.mem_log_bind hhere]
      exact .inl hr
    · intro r hr
      rw [expandContent, Expansion.mem_log_bind hhere, Expansion.mem_log_bind hrest]
      exact .inr (.inl hr)

end

/-- All classes of an expanded file are instances, and under the strict policy those of one name
in one namespace have one description. -/
theorem Interface.instances_of_instantiate {source : String} {m out : Interface}
    (hm : parse source = .ok m) (hout : m.instantiate .error = .ok out) {path : List String}
    {x y : ClassDecl} (hx : x.StandsIn path out.content) (hy : y.StandsIn path out.content)
    (hname : x.name = y.name) :
    x.IsInstance ∧ y.IsInstance ∧
      describe x.genericName x.bindings = describe y.genericName y.bindings := by
  obtain ⟨content, hc, rfl⟩ := except_map_ok hout
  have hwf := wellFormed_of_parse hm
  have hall := accounted_expandContent (TypedefIndex.classesWritten_ofContent hwf) (by simp)
    m.content hwf (Expansion.outcome_of_settle hc)
  obtain ⟨hxi, xspan, hxlog⟩ := hall path x hx
  obtain ⟨hyi, yspan, hylog⟩ := hall path y hy
  exact ⟨hxi, hyi, Expansion.description_eq_of_settle hc hxlog hylog rfl hname⟩

/-- Under the strict policy, classes that share a name in one namespace have one generic name, and
their bindings differ at most in their qualifiers. They stand for one C++ type exactly if their
templates stand in the same namespaces and the qualifiers are the same, too. -/
theorem Interface.cppType_eq_iff_of_name_eq {source : String} {m out : Interface}
    (hm : parse source = .ok m) (hout : m.instantiate .error = .ok out) {path : List String}
    {x y : ClassDecl} (hx : x.StandsIn path out.content) (hy : y.StandsIn path out.content)
    (hname : x.name = y.name) :
    x.genericName = y.genericName ∧
      x.bindings.map TypeExpr.typename = y.bindings.map TypeExpr.typename ∧
      (x.cppType = y.cppType ↔ x.namespaces = y.namespaces ∧
        x.bindings.map TypeExpr.qualifiers = y.bindings.map TypeExpr.qualifiers) := by
  obtain ⟨hxi, hyi, hdescribe⟩ := instances_of_instantiate hm hout hx hy hname
  obtain ⟨hgeneric, htypenames⟩ := describe_injective hxi.genericName hyi.genericName
    hxi.bindings hyi.bindings hdescribe
  refine ⟨hgeneric, htypenames, ?_⟩
  rw [x.cppType_eq, y.cppType_eq, Typename.ofPath_eq hxi.namespaces,
    Typename.ofPath_eq hyi.namespaces, Typename.mk.injEq,
    TypeExpr.map_eq_iff hxi.bindings hyi.bindings]
  constructor
  · intro h
    exact ⟨h.1, h.2.2.2⟩
  · intro h
    exact ⟨h.1, hgeneric, htypenames, h.2⟩

/-! ## A collision that is missed -/

theorem ClassDecl.standsIn_of_mem_classes {c : ClassDecl} {ds : Content} (h : c ∈ ds.classes) :
    c.StandsIn [] ds :=
  .here (Content.mem_of_mem_classes h)

namespace Interface

/-- A class for a type and for pointers to it. -/
def pointerFile : String := "template<T = \x7bA, A*\x7d> class Foo \x7b\x7d;"

/-- Both instances get one name, and nothing is reported. -/
theorem pointerFile_classes : ∃ (m out : Interface) (x y : ClassDecl), parse pointerFile = .ok m ∧
    m.instantiate .error = .ok out ∧ x.StandsIn [] out.content ∧ y.StandsIn [] out.content ∧
    x.name = y.name ∧ x.cppName = "Foo<A>" ∧ y.cppName = "Foo<std::shared_ptr<A>>" := by
  have hrun : (((parse pointerFile).toOption.bind fun m => (m.instantiate .error).toOption).map
      fun out => out.content.classes.map fun c => (c.name, c.cppName)) =
        some [("FooA", "Foo<A>"), ("FooA", "Foo<std::shared_ptr<A>>")] := by
    decide +kernel
  -- so both steps succeed, and there are two classes with these names
  obtain ⟨out, hrun, hclasses⟩ := Option.map_eq_some_iff.1 hrun
  obtain ⟨m, hm, hout⟩ := Option.bind_eq_some_iff.1 hrun
  obtain ⟨x, xs, hx, hxc, hxs⟩ := List.map_eq_cons_iff.1 hclasses
  obtain ⟨y, ys, hy, hyc, -⟩ := List.map_eq_cons_iff.1 hxs
  obtain ⟨hxname, hxcpp⟩ := Prod.mk.inj hxc
  obtain ⟨hyname, hycpp⟩ := Prod.mk.inj hyc
  refine ⟨m, out, x, y, except_ok_of_toOption hm, except_ok_of_toOption hout, ?_, ?_,
    hxname.trans hyname.symm, hxcpp, hycpp⟩
  · exact ClassDecl.standsIn_of_mem_classes (by simp [hx])
  · exact ClassDecl.standsIn_of_mem_classes (by simp [hx, hy])

/-- The two instances differ in the qualifiers of their bindings. -/
theorem pointerFile_qualifiers : ∃ (m out : Interface) (x y : ClassDecl), parse pointerFile = .ok m ∧
    m.instantiate .error = .ok out ∧ x.StandsIn [] out.content ∧ y.StandsIn [] out.content ∧
    x.name = y.name ∧ x.bindings.map TypeExpr.typename = y.bindings.map TypeExpr.typename ∧
    ¬ (x.namespaces = y.namespaces ∧
      x.bindings.map TypeExpr.qualifiers = y.bindings.map TypeExpr.qualifiers) := by
  obtain ⟨m, out, x, y, hm, hout, hx, hy, hname, hxcpp, hycpp⟩ := pointerFile_classes
  obtain ⟨-, htypenames, hiff⟩ := cppType_eq_iff_of_name_eq hm hout hx hy hname
  refine ⟨m, out, x, y, hm, hout, hx, hy, hname, htypenames, ?_⟩
  intro h
  have hcpp : x.cppName = y.cppName := congrArg Typename.cpp (hiff.2 h)
  rw [hxcpp, hycpp] at hcpp
  exact absurd hcpp (by decide)

/-- So the strict policy does not keep classes that share a name to one C++ type. -/
theorem not_cppType_eq_of_name_eq :
    ¬ ∀ (source : String) (m out : Interface) (path : List String) (x y : ClassDecl),
      parse source = .ok m → m.instantiate .error = .ok out → x.StandsIn path out.content →
      y.StandsIn path out.content → x.name = y.name → x.cppType = y.cppType := by
  intro hall
  obtain ⟨m, out, x, y, hm, hout, hx, hy, hname, hxcpp, hycpp⟩ := pointerFile_classes
  have hcpp : x.cppName = y.cppName :=
    congrArg Typename.cpp (hall pointerFile m out [] x y hm hout hx hy hname)
  rw [hxcpp, hycpp] at hcpp
  exact absurd hcpp (by decide)

end Interface

end TemplateIdl
