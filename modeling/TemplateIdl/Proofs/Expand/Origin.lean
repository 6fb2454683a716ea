import TemplateIdl.Proofs.Expand.Made

/-!
# Origin — what an expanded file records of its templates

* `Declaration.HeaderFree`, a declaration without headers, neither its own nor one of its members;
* `Declaration.StemsFrom`, a declaration that records a type for each parameter of the generic one
  that it was made from, and so do its members;
* `Interface.origin_of_parse`, all declarations of an expanded file are of both kinds.
-/

namespace TemplateIdl

/-! ## Headers -/

/-- There is no header in the class. -/
structure ClassDecl.HeaderFree (c : ClassDecl) : Prop where
  template : c.template = none
  ctors : ∀ d ∈ c.ctors, d.template = none
  methods : ∀ d ∈ c.methods, d.template = none
  statics : ∀ d ∈ c.statics, d.template = none
  properties : ∀ d ∈ c.properties, d.template = none

/-- The declaration is no typedef, and there is no header in it. -/
def Declaration.HeaderFree : Declaration → Prop
  | .cls c => c.HeaderFree
  | .forward d => d.template = none
  | .var d => d.template = none
  | .function d => d.template = none
  | .typedef _ => False
  | .inclusion _ | .space _ _ _ | .enumeration _ => True

/-- All members of an instance have lost their headers, and properties never had any. -/
theorem ClassDecl.Made.headerFree {c y : ClassDecl} {bindings : List TypeExpr}
    {newName : Option String} (h : c.Made bindings newName y) {path : List String}
    (hc : c.Scoped path) : y.HeaderFree := by
  have hmember : ∀ m ∈ y.members, ∃ g ∈ c.members, ∃ own,
      Member.Made (c.frame bindings y.name) y.name own g m := by
    intro m hm
    obtain ⟨g, hg, group, hgroup, hm⟩ := h.members.exists_of_mem hm
    obtain ⟨own, -, hmade⟩ := exists_mem_of_forall₂ hgroup.flip hm
    exact ⟨g, hg, own, hmade⟩
  have htemplates : ∀ m ∈ y.members, m.template = none := by
    intro m hm
    obtain ⟨g, -, own, hmade⟩ := hmember m hm
    exact hmade.template
  have hproperties : ∀ d ∈ y.properties, d.template = none := by
    intro d hd
    obtain ⟨g, hg, own, hmade⟩ := hmember (.property d) (by simp [ClassDecl.members, hd])
    cases hmade with
    | property htype => exact (hc.members _ hg).2.2.1
  simp only [ClassDecl.members, List.forall_mem_append, List.forall_mem_map] at htemplates
  obtain ⟨⟨⟨⟨⟨⟨hctors, hmethods⟩, hstatics⟩, -⟩, -⟩, -⟩, -⟩ := htemplates
  exact ⟨h.template, hctors, hmethods, hstatics, hproperties⟩

theorem Declaration.Made.headerFree {g x : Declaration} (h : g.Made x) {path : List String}
    (hg : g.Scoped path) : x.HeaderFree := by
  cases h with
  | cls _ h => exact h.headerFree hg
  | function _ h =>
    obtain ⟨-, result, args, -, -, rfl⟩ := FunctionDecl.eq_of_instantiate h
    rfl
  | var h =>
    obtain ⟨-, type, -, rfl⟩ := VariableDecl.eq_of_instantiate h
    rfl
  | plainForward h => exact h
  | forward h =>
    obtain ⟨parent, -, h⟩ := except_bind_ok h
    cases h
    rfl
  | _ => trivial

/-! ## Recorded types -/

/-- Number of recorded types. -/
def Provenance.arity (p : Provenance) : Nat := p.bindings.length

/-- There is a record exactly if there is a header, and it has a type for each parameter. -/
def Records (template : Option Template) (provenance : Option Provenance) : Prop :=
  provenance.map Provenance.arity = template.map Template.arity

theorem records_provenanceOf {template : Option Template} {bindings : List TypeExpr}
    (h : (paramNames template).length = bindings.length) (name : String) :
    Records template (provenanceOf template name bindings) := by
  cases template with
  | none => rfl
  | some t =>
    rw [paramNames, Template.names, List.length_map] at h
    exact congrArg some h.symm

/-- The members stand for `g`: as many as its header lists combinations, each with a record. -/
structure Member.Yields (g : Member) (ms : List Member) : Prop where
  length : ms.length = (combinationsOf g.template).length
  span : ∀ m ∈ ms, m.span = g.span
  records : ∀ m ∈ ms, Records g.template m.provenance

theorem Member.Instances.yields {x : ClassContext} {className : String} {g : Member}
    {ms : List Member} (h : Instances x className g ms) : g.Yields ms := by
  constructor
  · exact h.length_eq.symm
  · intro m hm
    obtain ⟨bindings, -, hmade⟩ := exists_mem_of_forall₂ h.flip hm
    exact hmade.span
  · intro m hm
    obtain ⟨bindings, hb, hmade⟩ := exists_mem_of_forall₂ h.flip hm
    rw [hmade.provenance]
    exact records_provenanceOf (length_of_mem_combinations hb) g.name

/-- The declaration `x` stands where the generic declaration `g` stands and records a type for each
parameter of it. In a class, so do the members that can have a header. -/
inductive Declaration.StemsFrom : Declaration → Declaration → Prop
  | inclusion (d : IncludeDecl) : StemsFrom (.inclusion d) (.inclusion d)
  | enumeration (d : EnumDecl) : StemsFrom (.enumeration d) (.enumeration d)
  | space (name : String) (content inner : Content) (span : Span) :
      StemsFrom (.space name inner span) (.space name content span)
  | cls {y c : ClassDecl} (hspan : y.span = c.span) (hrecord : Records c.template y.provenance)
      (hctors : Grouped Member.Yields (c.ctors.map .ctor) (y.ctors.map .ctor))
      (hmethods : Grouped Member.Yields (c.methods.map .method) (y.methods.map .method))
      (hstatics : Grouped Member.Yields (c.statics.map .static) (y.statics.map .static)) :
      StemsFrom (.cls y) (.cls c)
  | function {y d : FunctionDecl} (hspan : y.span = d.span)
      (hrecord : Records d.template y.provenance) : StemsFrom (.function y) (.function d)
  | var {y d : VariableDecl} (hspan : y.span = d.span)
      (hrecord : Records d.template y.provenance) : StemsFrom (.var y) (.var d)
  | forward {y d : ForwardDecl} (hspan : y.span = d.span) : StemsFrom (.forward y) (.forward d)

theorem Declaration.Made.stemsFrom {g x : Declaration} (h : g.Made x) : x.StemsFrom g := by
  cases h with
  | inclusion d => exact .inclusion d
  | enumeration d => exact .enumeration d
  | space name content inner span => exact .space name content inner span
  | cls _ h =>
    have hrecord := h.provenance ▸ records_provenanceOf h.arity _
    exact .cls h.span hrecord (h.ctors.imp fun _ _ hg => hg.yields)
      (h.methods.imp fun _ _ hg => hg.yields) (h.statics.imp fun _ _ hg => hg.yields)
  | function _ h =>
    obtain ⟨hlength, result, args, -, -, rfl⟩ := FunctionDecl.eq_of_instantiate h
    exact .function rfl (records_provenanceOf hlength _)
  | var h =>
    obtain ⟨hlength, type, -, rfl⟩ := VariableDecl.eq_of_instantiate h
    exact .var rfl (records_provenanceOf hlength _)
  | plainForward _ => exact .forward rfl
  | forward h =>
    obtain ⟨parent, -, h⟩ := except_bind_ok h
    cases h
    exact .forward rfl

/-! ## Expanded files -/

namespace Interface

/-- In a file that is read and expanded, every declaration at any depth is free of headers. It
stands in the block of a declaration at the same depth and stems from the source of that: from the
target of a typedef, and otherwise from the declaration itself. -/
theorem origin_of_parse {source : String} {m out : Interface} (hm : parse source = .ok m)
    {policy : CollisionPolicy} (h : m.instantiate policy = .ok out) {path : List String}
    {x : Declaration} (hx : out.content.Has path x) :
    x.HeaderFree ∧ ∃ d block path' g, m.content.Has path d ∧
      Block (.ofContent m.content) d block ∧ x ∈ block ∧
      m.content.Has path' g ∧ d.IsSource m.content g ∧ x.StemsFrom g := by
  obtain ⟨content, hc, rfl⟩ := except_map_ok h
  have hblocks := blocks_of_expandContent _ [] m.content (Expansion.outcome_of_settle hc)
  have hwf := wellFormed_of_parse hm
  obtain ⟨d, block, hd, hblock, hmem⟩ := hblocks.exists_block hx
  obtain ⟨path', g, hg, hsource, hmade⟩ := made_of_block hd (hd.wellFormed hwf) hblock hmem
  have hfree := hmade.headerFree (hg.wellFormed hwf).scoped
  exact ⟨hfree, d, block, path', g, hd, hblock, hmem, hg, hsource, hmade.stemsFrom⟩

/-- A template with a constructor that has a header of its own, and its instance under a new name in
a namespace. -/
def crates : String :=
  "template<T = \x7bint\x7d> class Box \x7b template<U = \x7bT, bool\x7d> Box(U u); int size; \x7d; "
    ++ "namespace store \x7b typedef Box<double> Crate; \x7d"

/-- The crate is free of headers and stems from the box, with two constructors for the one that the
box has. -/
theorem crates_origin : ∃ m out c, parse crates = .ok m ∧ m.instantiate .error = .ok out ∧
    out.content.Has ["store"] (.cls c) ∧ c.name = "Crate" ∧ c.ctors.length = 2 ∧
    (Declaration.cls c).HeaderFree ∧ ∃ g, (Declaration.cls c).StemsFrom g := by
  have hrun : ((parse crates).toOption.any fun m => (m.instantiate .error).toOption.any fun out =>
      out.content.spaces.any fun inner => inner.1 == "store" && inner.2.classes.any fun c =>
        c.name == "Crate" && c.ctors.length == 2) = true := by
    decide +kernel
  simp only [Option.any_eq_true, List.any_eq_true, Bool.and_eq_true, beq_iff_eq] at hrun
  obtain ⟨m, hm, out, hout, ⟨name, store⟩, hstore, rfl, c, hc, hname, hlength⟩ := hrun
  have hparse := except_ok_of_toOption hm
  have hexpand := except_ok_of_toOption hout
  obtain ⟨span, hspace⟩ := Content.exists_mem_of_mem_spaces hstore
  have hclass : out.content.Has ["store"] (.cls c) :=
    .inside hspace (.here (Content.mem_of_mem_classes hc))
  obtain ⟨hfree, d, block, path', g, -, -, -, -, -, hstems⟩ :=
    origin_of_parse hparse hexpand hclass
  exact ⟨m, out, c, hparse, hexpand, hclass, hname, hlength, hfree, g, hstems⟩

end Interface

end TemplateIdl
