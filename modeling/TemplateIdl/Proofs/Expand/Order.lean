import TemplateIdl.Proofs.Expand.Blocks
import TemplateIdl.Proofs.Expand.Lookup
import TemplateIdl.Proofs.Expand.Registry

/-!
# Order — declarations in another order

What stands in the place of a declaration depends on the other declarations through the index and
through the names that are taken. Neither depends on the order in which declarations stand.

* `Place` and `Place.fill`, a namespace anywhere in a file, and the file with some content in it;
* `outcome_expandContent_iff`, each declaration is expanded by itself;
* `TypedefIndex.target_perm`, typedefs have the same targets in another order;
* `Interface.instantiate_perm`, so declarations in another order are expanded to the same blocks in
  that order.
-/

namespace TemplateIdl

/-! ## Places in a file -/

/-- A namespace with what stands in front of it and behind it. Its content is left open. -/
structure Frame where
  before : Content
  name : String
  span : Span
  after : Content

/-- A place for declarations: the namespaces around it, from the outside to the inside. -/
abbrev Place := List Frame

namespace Place

/-- The path of the namespaces. -/
def path (place : Place) : List String := place.map Frame.name

/-- The file that has the declarations `ds` in the place. -/
def fill : Place → Content → Content
  | [], ds => ds
  | f :: place, ds => f.before ++ .space f.name (fill place ds) f.span :: f.after

/-- The namespaces around a place are kept, and what stands beside them is expanded. -/
def Expanded (index : TypedefIndex) : Place → Place → Prop :=
  List.Forall₂ fun f f' => f'.name = f.name ∧ f'.span = f.span ∧
    Blocks index f.before f'.before ∧ Blocks index f.after f'.after

end Place

/-! ## Each declaration by itself -/

/-- The declarations that stand in the place of one; none if it cannot be expanded. -/
def blockOf (index : TypedefIndex) (scope : List String) (d : Declaration) : Content :=
  (expandDeclaration index scope d).outcome.toOption.getD []

theorem blockOf_eq {index : TypedefIndex} {scope : List String} {d : Declaration}
    {block : Content} (h : (expandDeclaration index scope d).outcome = .ok block) :
    blockOf index scope d = block := by
  rw [blockOf, h]
  rfl

theorem outcome_eq_ok_blockOf {index : TypedefIndex} {scope : List String} {d : Declaration}
    {block : Content} (h : (expandDeclaration index scope d).outcome = .ok block) :
    (expandDeclaration index scope d).outcome = .ok (blockOf index scope d) := by
  rw [blockOf_eq h, h]

/-- Declarations can be expanded if each of them can, and their blocks stand in their order. -/
theorem outcome_expandContent_iff {index : TypedefIndex} {scope : List String} {ds out : Content} :
    (expandContent index scope ds).outcome = .ok out ↔
      (∀ d ∈ ds, (expandDeclaration index scope d).outcome = .ok (blockOf index scope d)) ∧
        out = ds.flatMap (blockOf index scope) := by
  induction ds generalizing out with
  | nil =>
    constructor
    · intro h
      exact ⟨by simp, (Expansion.outcome_pure_ok h).symm⟩
    · intro h
      rw [h.2]
      rfl
  | cons d ds ih =>
    constructor
    · intro h
      obtain ⟨here, hhere, h⟩ := Expansion.outcome_bind_ok h
      obtain ⟨rest, hrest, rfl⟩ := Expansion.outcome_wrap_ok h
      obtain ⟨hall, rfl⟩ := ih.1 hrest
      have hblock := outcome_eq_ok_blockOf hhere
      refine ⟨List.forall_mem_cons.2 ⟨hblock, hall⟩, ?_⟩
      rw [hhere] at hblock
      rw [List.flatMap_cons, Except.ok.inj hblock]
    · intro h
      obtain ⟨hall, rfl⟩ := h
      rw [List.forall_mem_cons] at hall
      rw [expandContent, Expansion.outcome_bind, hall.1]
      show ((expandContent index scope ds >>= fun rest => pure (_ ++ rest)).outcome) = _
      rw [Expansion.outcome_bind, ih.2 ⟨hall.2, rfl⟩]
      rfl

/-- The names that declarations register stand in the order of the declarations, too. -/
theorem log_expandContent {index : TypedefIndex} {scope : List String} {ds : Content}
    (h : ∀ d ∈ ds, (expandDeclaration index scope d).outcome = .ok (blockOf index scope d)) :
    (expandContent index scope ds).log =
      ds.flatMap fun d => (expandDeclaration index scope d).log := by
  induction ds with
  | nil => rfl
  | cons d ds ih =>
    rw [List.forall_mem_cons] at h
    have hrest : (expandContent index scope ds).outcome = .ok (ds.flatMap (blockOf index scope)) :=
      outcome_expandContent_iff.2 ⟨h.2, rfl⟩
    rw [expandContent, Expansion.log_bind_of_ok h.1, Expansion.log_bind_of_ok hrest, ih h.2,
      Expansion.log_pure, List.append_nil, List.flatMap_cons]

theorem outcome_expandDeclaration_space {index : TypedefIndex} {scope : List String}
    {name : String} {content inner : Content} (span : Span)
    (h : (expandContent index (scope ++ [name]) content).outcome = .ok inner) :
    (expandDeclaration index scope (.space name content span)).outcome =
      .ok [.space name inner span] := by
  rw [expandDeclaration, Expansion.outcome_bind, h]
  rfl

theorem log_expandDeclaration_space {index : TypedefIndex} {scope : List String}
    {name : String} {content inner : Content} (span : Span)
    (h : (expandContent index (scope ++ [name]) content).outcome = .ok inner) :
    (expandDeclaration index scope (.space name content span)).log =
      (expandContent index (scope ++ [name]) content).log := by
  rw [expandDeclaration, Expansion.log_bind_of_ok h, Expansion.log_pure, List.append_nil]

/-! ## Targets of typedefs -/

namespace TypedefIndex

variable {x y : TypedefIndex} {entries entries' : List (List String × Target)}

theorem visible_perm {ts us : List Target} (h : ts.Perm us) : (visible ts).Perm (visible us) := by
  unfold visible
  rw [h.any_eq]
  split
  · exact h.filter _
  · exact h

/-- An index of the same targets in another order gives the same targets in another order. -/
theorem Indexes.resolveIn_perm (hx : x.Indexes entries) (hy : y.Indexes entries')
    (h : entries.Perm entries') (path : List String) (scopes : List (List String)) :
    (x.resolveIn path scopes).Perm (y.resolveIn path scopes) := by
  induction scopes with
  | nil => exact .refl _
  | cons scope scopes ih =>
    have hat : (targetsAt entries (scope ++ path)).Perm (targetsAt entries' (scope ++ path)) :=
      (h.filter _).map _
    rw [hx.resolveIn_cons, hy.resolveIn_cons]
    by_cases hnil : targetsAt entries (scope ++ path) = []
    · have hnil' : targetsAt entries' (scope ++ path) = [] := by
        rw [hnil] at hat
        exact hat.nil_eq.symm
      rw [if_pos hnil, if_pos hnil']
      exact ih
    · have hnil' : targetsAt entries' (scope ++ path) ≠ [] := by
        intro he
        rw [he] at hat
        exact hnil hat.eq_nil
      rw [if_neg hnil, if_neg hnil']
      exact visible_perm hat

/-- A typedef has the same target, or fails in the same way. -/
theorem Indexes.target_perm (hx : x.Indexes entries) (hy : y.Indexes entries')
    (h : entries.Perm entries') (d : TypedefDecl) : x.target d = y.target d := by
  have hfound := hx.resolveIn_perm hy h (d.target.namespaces ++ [d.target.name])
    (outward d.namespaces)
  unfold target resolve
  generalize x.resolveIn _ _ = ts at hfound
  generalize y.resolveIn _ _ = us at hfound
  have hlength := hfound.length_eq
  match ts, us, hfound, hlength with
  | [], [], _, _ => rfl
  | [t], [u], hfound, _ => rw [List.singleton_perm_singleton.1 hfound]
  | t :: t' :: ts, u :: u' :: us, _, hlength =>
    show Except.error _ = Except.error _
    rw [hlength]

end TypedefIndex

mutual

/-- What a declaration expands to depends on the index only through the targets of typedefs. -/
theorem expandDeclaration_congr {x y : TypedefIndex} (h : ∀ d, x.target d = y.target d)
    (scope : List String) (d : Declaration) :
    expandDeclaration x scope d = expandDeclaration y scope d := by
  cases d with
  | space name content span =>
    rw [expandDeclaration, expandDeclaration, expandContent_congr h (scope ++ [name]) content]
  | typedef d => rw [expandDeclaration, expandDeclaration, expandTypedef, expandTypedef, h d]
  | cls d => rfl
  | function d => rfl
  | var d => rfl
  | forward d => rfl
  | inclusion d => rfl
  | enumeration d => rfl

theorem expandContent_congr {x y : TypedefIndex} (h : ∀ d, x.target d = y.target d)
    (scope : List String) (ds : Content) : expandContent x scope ds = expandContent y scope ds := by
  cases ds with
  | nil => rfl
  | cons d ds =>
    rw [expandContent, expandContent, expandDeclaration_congr h scope d,
      expandContent_congr h scope ds]

end

/-! ## Another order in one place -/

section Reordered

variable {ds es : Content}

theorem contentTargets_fill_perm (h : ds.Perm es) (scope : List String) (place : Place) :
    (Declaration.contentTargets scope (place.fill ds)).Perm
      (Declaration.contentTargets scope (place.fill es)) := by
  induction place generalizing scope with
  | nil =>
    show (Declaration.contentTargets scope ds).Perm (Declaration.contentTargets scope es)
    rw [Declaration.contentTargets_eq_flatMap, Declaration.contentTargets_eq_flatMap]
    exact h.flatMap_right _
  | cons f place ih =>
    simp only [Place.fill, Declaration.contentTargets_eq_flatMap, List.flatMap_append,
      List.flatMap_cons]
    refine List.Perm.append_left _ (List.Perm.append_right _ ?_)
    rw [Declaration.targets, Declaration.targets]
    exact ih (scope ++ [f.name])

/-- Typedefs have the same targets. -/
theorem TypedefIndex.target_fill (h : ds.Perm es) (place : Place) (d : TypedefDecl) :
    (ofContent (place.fill ds)).target d = (ofContent (place.fill es)).target d :=
  (indexes_ofContent _).target_perm (indexes_ofContent _) (contentTargets_fill_perm h [] place) d

/-- If the declarations can be expanded in one order, they can in the other one: to the same
blocks, with the same declarations around them and with the same names. -/
theorem expandContent_fill_perm (index : TypedefIndex) (h : ds.Perm es) (scope : List String)
    (place : Place) {out : Content}
    (hout : (expandContent index scope (place.fill ds)).outcome = .ok out) :
    ∃ rest : Place, Place.Expanded index place rest ∧
      (∀ d ∈ ds, (expandDeclaration index (scope ++ place.path) d).outcome =
        .ok (blockOf index (scope ++ place.path) d)) ∧
      out = rest.fill (ds.flatMap (blockOf index (scope ++ place.path))) ∧
      (expandContent index scope (place.fill es)).outcome =
        .ok (rest.fill (es.flatMap (blockOf index (scope ++ place.path)))) ∧
      (expandContent index scope (place.fill ds)).log.Perm
        (expandContent index scope (place.fill es)).log := by
  induction place generalizing scope out with
  | nil =>
    simp only [Place.fill, Place.path, List.map_nil, List.append_nil] at hout ⊢
    obtain ⟨hall, rfl⟩ := outcome_expandContent_iff.1 hout
    have hall' : ∀ d ∈ es, (expandDeclaration index scope d).outcome =
        .ok (blockOf index scope d) := fun d hd => hall d (h.mem_iff.2 hd)
    refine ⟨[], .nil, hall, rfl, outcome_expandContent_iff.2 ⟨hall', rfl⟩, ?_⟩
    rw [log_expandContent hall, log_expandContent hall']
    exact h.flatMap_right _
  | cons f place ih =>
    obtain ⟨hall, rfl⟩ := outcome_expandContent_iff.1 hout
    have hlog := log_expandContent hall
    rw [Place.fill, List.forall_mem_append, List.forall_mem_cons] at hall
    obtain ⟨hbefore, hspace, hafter⟩ := hall
    -- the namespace in which the place is
    obtain ⟨inner, hinner, -⟩ := Expansion.outcome_wrap_ok hspace
    obtain ⟨rest, hrest, hblocks, rfl, hinner', hinnerlog⟩ := ih (scope ++ [f.name]) hinner
    have hpath : scope ++ [f.name] ++ Place.path place = scope ++ Place.path (f :: place) := by
      rw [List.append_assoc]
      rfl
    rw [hpath] at hblocks hinner hinner'
    have hhere := outcome_expandDeclaration_space f.span hinner
    have hhere' := outcome_expandDeclaration_space f.span hinner'
    have hall' : ∀ d ∈ Place.fill (f :: place) es,
        (expandDeclaration index scope d).outcome = .ok (blockOf index scope d) := by
      rw [Place.fill, List.forall_mem_append, List.forall_mem_cons]
      exact ⟨hbefore, outcome_eq_ok_blockOf hhere', hafter⟩
    -- what stands beside the namespace is the same in both orders
    have hbeside := blocks_of_expandContent index scope f.before
      (outcome_expandContent_iff.2 ⟨hbefore, rfl⟩)
    have hbehind := blocks_of_expandContent index scope f.after
      (outcome_expandContent_iff.2 ⟨hafter, rfl⟩)
    refine ⟨⟨f.before.flatMap (blockOf index scope), f.name, f.span,
      f.after.flatMap (blockOf index scope)⟩ :: rest, .cons ⟨rfl, rfl, hbeside, hbehind⟩ hrest,
      hblocks, ?_, ?_, ?_⟩
    · simp [Place.fill, blockOf_eq hhere]
    · rw [outcome_expandContent_iff.2 ⟨hall', rfl⟩]
      simp [Place.fill, blockOf_eq hhere']
    · rw [hlog, log_expandContent hall']
      simp only [Place.fill, List.flatMap_append, List.flatMap_cons,
        log_expandDeclaration_space f.span hinner, log_expandDeclaration_space f.span hinner']
      exact List.Perm.append_left _ (List.Perm.append_right _ hinnerlog)

/-- A file that can be expanded can be expanded in another order, too. -/
theorem Interface.instantiate_fill_of_perm {policy : CollisionPolicy} (h : ds.Perm es)
    (place : Place) {out : Interface} (hout : instantiate policy ⟨place.fill ds⟩ = .ok out) :
    ∃ (rest : Place) (block : Declaration → Content),
      Place.Expanded (.ofContent (place.fill ds)) place rest ∧
      (∀ d ∈ ds, Block (.ofContent (place.fill ds)) d (block d) ∧
        Block (.ofContent (place.fill es)) d (block d)) ∧
      out.content = rest.fill (ds.flatMap block) ∧
      instantiate policy ⟨place.fill es⟩ = .ok ⟨rest.fill (es.flatMap block)⟩ := by
  obtain ⟨content, hsettle, rfl⟩ := except_map_ok hout
  obtain ⟨houtcome, hnames⟩ := Expansion.settle_eq_ok_iff.1 hsettle
  obtain ⟨rest, hrest, hblocks, hcontent, houtcome', hlog⟩ :=
    expandContent_fill_perm (.ofContent (place.fill ds)) h [] place houtcome
  -- both files have the same targets, so one index serves for both
  have hindex := TypedefIndex.target_fill h place
  refine ⟨rest, blockOf (.ofContent (place.fill ds)) ([] ++ place.path), hrest, ?_, hcontent, ?_⟩
  · intro d hd
    have hblock := hblocks d hd
    refine ⟨block_of_expandDeclaration _ _ d hblock, ?_⟩
    rw [expandDeclaration_congr hindex] at hblock
    exact block_of_expandDeclaration _ _ d hblock
  · have hnames' := hnames.imp_right (NameRegistry.Consistent.perm hlog)
    have hsettle' := Expansion.settle_eq_ok_iff.2 ⟨houtcome', hnames'⟩
    rw [expandContent_congr hindex] at hsettle'
    show (Expansion.settle policy _).map Interface.mk = _
    rw [hsettle']
    rfl

end Reordered

/-- Declarations of a namespace in another order: the file can be expanded under a policy in both
orders or in none, each of the declarations stands for the same block, the blocks stand in the
order of the declarations, and around them all is the same. -/
theorem Interface.instantiate_perm (policy : CollisionPolicy) (place : Place) {ds es : Content}
    (h : ds.Perm es) :
    ((∃ out, instantiate policy ⟨place.fill ds⟩ = .ok out) ↔
      ∃ out, instantiate policy ⟨place.fill es⟩ = .ok out) ∧
    ∀ out out', instantiate policy ⟨place.fill ds⟩ = .ok out →
      instantiate policy ⟨place.fill es⟩ = .ok out' →
      ∃ (rest : Place) (block : Declaration → Content),
        Place.Expanded (.ofContent (place.fill ds)) place rest ∧
        (∀ d ∈ ds, Block (.ofContent (place.fill ds)) d (block d) ∧
          Block (.ofContent (place.fill es)) d (block d)) ∧
        out.content = rest.fill (ds.flatMap block) ∧
        out'.content = rest.fill (es.flatMap block) := by
  refine ⟨⟨?_, ?_⟩, ?_⟩
  · intro hout
    obtain ⟨out, hout⟩ := hout
    obtain ⟨rest, block, -, -, -, hout'⟩ := instantiate_fill_of_perm h place hout
    exact ⟨_, hout'⟩
  · intro hout
    obtain ⟨out, hout⟩ := hout
    obtain ⟨rest, block, -, -, -, hout'⟩ := instantiate_fill_of_perm h.symm place hout
    exact ⟨_, hout'⟩
  · intro out out' hout hout'
    obtain ⟨rest, block, hrest, hblocks, hcontent, hes⟩ := instantiate_fill_of_perm h place hout
    rw [hout'] at hes
    cases hes
    exact ⟨rest, block, hrest, hblocks, hcontent, rfl⟩

/-- `namespace tools { ... }` behind an include. -/
def toolsPlace : Place := [⟨[.inclusion ⟨"box.h", .point .start⟩], "tools", .point .start, []⟩]

/-- `typedef Box<double> Crate;` and `template<T = {int, bool}> class Box {};` in `tools`. -/
def toolsContent : Content :=
  [.typedef ⟨⟨[], "Box", [.named "double"]⟩, "Crate", ["tools"], .point .start⟩,
   .cls { ClassDecl.bare "Box" ["tools"] (.point .start) with
      template := some ⟨[⟨"T", [.named "int", .named "bool"]⟩]⟩ }]

/-- A typedef in front of its target and behind it. -/
theorem Interface.tools_perm : ∃ out out',
    instantiate .error ⟨toolsPlace.fill toolsContent⟩ = .ok out ∧
    instantiate .error ⟨toolsPlace.fill toolsContent.reverse⟩ = .ok out' ∧
    (out.content.space? "tools").map Content.names = some ["Crate", "BoxInt", "BoxBool"] ∧
    (out'.content.space? "tools").map Content.names = some ["BoxInt", "BoxBool", "Crate"] ∧
    ∃ (rest : Place) (block : Declaration → Content),
      Place.Expanded (.ofContent (toolsPlace.fill toolsContent)) toolsPlace rest ∧
      (∀ d ∈ toolsContent, Block (.ofContent (toolsPlace.fill toolsContent)) d (block d) ∧
        Block (.ofContent (toolsPlace.fill toolsContent.reverse)) d (block d)) ∧
      out.content = rest.fill (toolsContent.flatMap block) ∧
      out'.content = rest.fill (toolsContent.reverse.flatMap block) :=
  ⟨_, _, rfl, rfl, by decide, by decide,
    (instantiate_perm .error toolsPlace toolsContent.reverse_perm.symm).2 _ _ rfl rfl⟩

end TemplateIdl
