import TemplateIdl.Proofs.Decl.Text
import TemplateIdl.Proofs.Expand.Blocks
import TemplateIdl.Proofs.Grammar.Report
import TemplateIdl.Proofs.Expand.Lookup
import TemplateIdl.Proofs.Expand.Policy
import TemplateIdl.Wrap

/-!
# Report — where errors of an expansion are reported

* `Expansion.Reports`, an expansion that reports errors and registers names at certain places only;
* `Content.Stands`, declarations of which all places and those of all members are such places;
* `TypedefIndex.has_of_target`, the target of a typedef stands in the file;
* `reports_expandContent`, declarations are expanded with errors at their places;
* `Interface.report_of_instantiate`, so a file is, whatever becomes of collisions;
* `Interface.places`, all places that are reported for a text are real.
-/

namespace TemplateIdl

variable {α β : Type} {P : Span → Prop}

/-! ## Results -/

/-- All errors are at places that satisfy `P`. -/
def ErrorsAt (P : Span → Prop) (x : Except ExpansionError α) : Prop :=
  ∀ e, x = .error e → P e.span

theorem ErrorsAt.ok (a : α) : ErrorsAt P (.ok a) := nofun

theorem ErrorsAt.bind {x : Except ExpansionError α} {f : α → Except ExpansionError β}
    (hx : ErrorsAt P x) (hf : ∀ a, ErrorsAt P (f a)) : ErrorsAt P (x >>= f) :=
  ErrorsIn.bind hx hf

theorem errorsAt_resolved {name : String} {span : Span} (h : P span) (x : Option α) :
    ErrorsAt P (resolved name span x) := by
  intro e he
  cases x with
  | none =>
    cases he
    exact h
  | some a => cases he

theorem errorsAt_bind {name : String} {params : List String} {types : List TypeExpr} {span : Span}
    (h : P span) : ErrorsAt P (Substitution.bind name params types span) := by
  intro e he
  unfold Substitution.bind at he
  split at he
  · cases he
  · cases he
    exact h

theorem errorsAt_function {span : Span} {d : FunctionDecl} (hspan : P span) (hd : P d.span)
    (bindings : List TypeExpr) (newName : Option String) :
    ErrorsAt P (d.instantiateAt span bindings newName) := by
  refine (errorsAt_bind hspan).bind fun σ => ?_
  refine (errorsAt_resolved hd _).bind fun result => ?_
  exact (errorsAt_resolved hd _).bind fun args => .ok _

theorem errorsAt_variable {d : VariableDecl} (hd : P d.span) (bindings : List TypeExpr)
    (newName : Option String) : ErrorsAt P (d.instantiate bindings newName) := by
  refine (errorsAt_bind hd).bind fun σ => ?_
  exact (errorsAt_resolved hd _).bind fun type => .ok _

theorem errorsAt_forward {span : Span} {d : ForwardDecl} (hspan : P span) (hd : P d.span)
    (bindings : List TypeExpr) (newName : Option String) :
    ErrorsAt P (d.instantiateAt span bindings newName) := by
  have hparent : ErrorsAt P (d.instanceParent span bindings) := by
    unfold ForwardDecl.instanceParent
    split
    · exact (errorsAt_bind hspan).bind fun σ => errorsAt_resolved hd _
    · exact .ok _
  exact hparent.bind fun parent => .ok _

/-! ## Expansions -/

namespace Expansion

/-- All errors are at places that satisfy `P`, and so are all names on the way. -/
structure Reports (P : Span → Prop) (x : Expansion α) : Prop where
  outcome : ErrorsAt P x.outcome
  log : ∀ r ∈ x.log, P r.span

namespace Reports

theorem pure (a : α) : Reports P (Pure.pure a) := ⟨.ok a, by simp⟩

theorem lift {x : Except ExpansionError α} (h : ErrorsAt P x) : Reports P (.lift x) :=
  ⟨h, fun _ hr => absurd hr List.not_mem_nil⟩

theorem register {r : Registration} (h : P r.span) : Reports P (.register r) :=
  ⟨.ok (), fun _ hr => List.mem_singleton.1 hr ▸ h⟩

/-- What follows only matters for the value that there is. -/
theorem bind_ok {x : Expansion α} {f : α → Expansion β} (hx : Reports P x)
    (hf : ∀ a, x.outcome = .ok a → Reports P (f a)) : Reports P (x >>= f) := by
  obtain ⟨log, outcome⟩ := x
  cases outcome with
  | error e =>
    have he : ErrorsAt P (.error e : Except ExpansionError β) := by
      rintro _ ⟨⟩
      exact hx.outcome e rfl
    exact ⟨he, hx.log⟩
  | ok a =>
    have ha := hf a rfl
    exact ⟨ha.outcome, List.forall_mem_append.2 ⟨hx.log, ha.log⟩⟩

theorem bind {x : Expansion α} {f : α → Expansion β} (hx : Reports P x)
    (hf : ∀ a, Reports P (f a)) : Reports P (x >>= f) :=
  hx.bind_ok fun a _ => hf a

theorem forEach {f : α → Expansion β} {as : List α} (h : ∀ a ∈ as, Reports P (f a)) :
    Reports P (forEach f as) := by
  induction as with
  | nil => exact .pure []
  | cons a as ih =>
    rw [List.forall_mem_cons] at h
    exact h.1.bind fun b => (ih h.2).bind fun bs => .pure _

/-- A collision is reported where the second name was registered. -/
theorem settle {x : Expansion α} (h : Reports P x) (policy : CollisionPolicy) :
    ErrorsAt P (x.settle policy) := by
  intro e he
  unfold Expansion.settle at he
  split at he
  · next e' hg =>
    cases he
    obtain ⟨r, hr, first, -, rfl, -⟩ := NameRegistry.exists_of_registerAll_eq_error hg
    exact h.log r hr
  · exact h.outcome e he

end Reports

end Expansion

open Expansion

/-! ## Classes -/

section Members

variable {μ : Type} [TemplatedMember μ]

theorem reports_concreteMember {x : ClassContext} {σ : Substitution} {name : String}
    {provenance : Option Provenance} {m : μ} (h : P (TemplatedMember.span m)) :
    Reports P (concreteMember x σ name provenance m) :=
  .lift (errorsAt_resolved h _)

theorem reports_expandMembers {x : ClassContext} {base : μ → String} {ms : List μ}
    (h : ∀ m ∈ ms, P (TemplatedMember.span m)) : Reports P (expandMembers x base ms) := by
  have hmember : ∀ m ∈ ms, Reports P (expandMember x base m) := by
    intro m hm
    unfold expandMember
    split
    · exact (reports_concreteMember (h m hm)).bind fun d => .pure _
    · exact .forEach fun bindings _ =>
        (Reports.register (h m hm)).bind fun _ => reports_concreteMember (h m hm)
  exact (Reports.forEach hmember).bind fun groups => .pure _

end Members

/-- The class and its members stand at places that satisfy `P`. -/
def ClassDecl.Stands (P : Span → Prop) (c : ClassDecl) : Prop :=
  P c.span ∧ ∀ m ∈ c.members, P m.span

theorem reports_expand {span : Span} {c : ClassDecl} (hspan : P span) (hc : c.Stands P)
    (bindings : List TypeExpr) (newName : Option String) :
    Reports P (c.expand span bindings newName) := by
  obtain ⟨hself, hmembers⟩ := hc
  simp only [ClassDecl.members, List.forall_mem_append, List.forall_mem_map] at hmembers
  obtain ⟨⟨⟨⟨⟨⟨hctors, hmethods⟩, hstatics⟩, hspecials⟩, hoperators⟩, hproperties⟩, -⟩ := hmembers
  refine (Reports.lift (errorsAt_bind hspan)).bind fun σ => ?_
  refine (Reports.lift (errorsAt_resolved hself _)).bind fun parent => ?_
  refine (reports_expandMembers hctors).bind fun ctors => ?_
  refine (reports_expandMembers hmethods).bind fun methods => ?_
  refine (reports_expandMembers hstatics).bind fun statics => ?_
  refine (Reports.forEach fun d hd => .lift (errorsAt_resolved (hoperators d hd) _)).bind
    fun operators => ?_
  refine (Reports.forEach fun d hd => .lift (errorsAt_resolved (hproperties d hd) _)).bind
    fun properties => ?_
  refine (Reports.forEach fun d hd => .lift (errorsAt_resolved (hspecials d hd) _)).bind
    fun specials => ?_
  exact .pure _

/-! ## Declarations -/

/-- The declaration and the members that it has stand at places that satisfy `P`. -/
def Declaration.Stands (P : Span → Prop) : Declaration → Prop
  | .cls c => c.Stands P
  | d => P d.span

/-- All declarations do. -/
def Content.Stands (P : Span → Prop) (ds : Content) : Prop :=
  ∀ path d, ds.Has path d → d.Stands P

theorem Content.Stands.mem {ds : Content} (h : ds.Stands P) {d : Declaration} (hd : d ∈ ds) :
    d.Stands P :=
  h [] d (.here hd)

theorem Content.Stands.content {ds content : Content} {name : String} {span : Span}
    (h : ds.Stands P) (hd : .space name content span ∈ ds) : content.Stands P :=
  fun path d hc => h (name :: path) d (.inside hd hc)

theorem Content.Stands.tail {ds : Content} {d : Declaration} (h : Content.Stands P (d :: ds)) :
    ds.Stands P :=
  fun path e he => h path e (he.mono (List.subset_cons_self d ds))

theorem Declaration.Stands.span {d : Declaration} (h : d.Stands P) : P d.span := by
  cases d with
  | cls c => exact h.1
  | _ => exact h

/-! ### Targets of typedefs -/

namespace Declaration

mutual

theorem has_of_mem_targets {scope : List String} (d : Declaration) {e : List String × Target}
    (he : e ∈ targets scope d) :
    ∃ path d', Content.Has [d] path d' ∧ Target.ofDeclaration? d' = some e.2 := by
  cases d with
  | space name content span =>
    rw [targets] at he
    obtain ⟨path, d', hd', ht⟩ := has_of_mem_contentTargets content he
    exact ⟨name :: path, d', .inside List.mem_cons_self hd', ht⟩
  | cls c =>
    rw [targets, List.mem_singleton] at he
    exact ⟨[], .cls c, .here List.mem_cons_self, he ▸ rfl⟩
  | function f =>
    rw [targets, List.mem_singleton] at he
    exact ⟨[], .function f, .here List.mem_cons_self, he ▸ rfl⟩
  | forward f =>
    rw [targets, List.mem_singleton] at he
    exact ⟨[], .forward f, .here List.mem_cons_self, he ▸ rfl⟩
  | inclusion _ => simp [targets] at he
  | enumeration _ => simp [targets] at he
  | var _ => simp [targets] at he
  | typedef _ => simp [targets] at he

/-- What a typedef can name is a declaration somewhere in the content. -/
theorem has_of_mem_contentTargets {scope : List String} (ds : List Declaration)
    {e : List String × Target} (he : e ∈ contentTargets scope ds) :
    ∃ path d', Content.Has ds path d' ∧ Target.ofDeclaration? d' = some e.2 := by
  cases ds with
  | nil => simp [contentTargets] at he
  | cons d ds =>
    rw [contentTargets, List.mem_append] at he
    rcases he with he | he
    · obtain ⟨path, d', hd', ht⟩ := has_of_mem_targets d he
      exact ⟨path, d', hd'.mono (by simp), ht⟩
    · obtain ⟨path, d', hd', ht⟩ := has_of_mem_contentTargets ds he
      exact ⟨path, d', hd'.mono (List.subset_cons_self d ds), ht⟩

end

end Declaration

/-- What a typedef names is a declaration of the file. -/
theorem TypedefIndex.has_of_target {content : Content} {d : TypedefDecl} {t : Target}
    (ht : (ofContent content).target d = .ok t) :
    ∃ path d', content.Has path d' ∧ Target.ofDeclaration? d' = some t := by
  have hanswer := answer_resolve content d.namespaces (d.target.namespaces ++ [d.target.name])
  rw [resolve_of_target ht] at hanswer
  have hat : ∀ full, t ∈ targetsAt (Declaration.contentTargets [] content) full →
      ∃ path d', content.Has path d' ∧ Target.ofDeclaration? d' = some t := by
    intro full hfull
    obtain ⟨e, he, rfl⟩ := List.mem_map.1 hfull
    exact Declaration.has_of_mem_contentTargets content (List.mem_of_mem_filter he)
  generalize hfound : [t] = found at hanswer
  have hin : t ∈ found := hfound ▸ List.mem_singleton_self t
  cases hanswer with
  | nothing => cases hin
  | classes => exact hat _ (List.mem_of_mem_filter hin)
  | others => exact hat _ hin

/-- What a target stands for. -/
def Target.Stands (P : Span → Prop) : Target → Prop
  | .cls c => c.Stands P
  | .function d => P d.span
  | .forward d => P d.span

/-- It stands where the declaration stands. -/
theorem Content.Stands.target {content : Content} (h : content.Stands P) {d : TypedefDecl}
    {t : Target} (ht : (TypedefIndex.ofContent content).target d = .ok t) : t.Stands P := by
  obtain ⟨path, d', hd', hof⟩ := TypedefIndex.has_of_target ht
  have hstands := h path d' hd'
  cases d' <;> cases hof <;> exact hstands

/-! ### Expansions of declarations -/

theorem reports_targetExpand {span : Span} {t : Target} (hspan : P span) (ht : t.Stands P)
    (bindings : List TypeExpr) (newName : String) :
    Reports P (t.expand span bindings newName) := by
  cases t with
  | cls c => exact (reports_expand hspan ht bindings _).bind fun x => .pure _
  | function d => exact (Reports.lift (errorsAt_function hspan ht bindings _)).bind fun x => .pure _
  | forward d => exact (Reports.lift (errorsAt_forward hspan ht bindings _)).bind fun x => .pure _

theorem reports_expandTypedef {content : Content} (h : content.Stands P) {d : TypedefDecl}
    (hd : P d.span) : Reports P (expandTypedef (TypedefIndex.ofContent content) d) := by
  have htarget : ErrorsAt P ((TypedefIndex.ofContent content).target d) := by
    intro e he
    unfold TypedefIndex.target at he
    split at he <;> cases he <;> exact hd
  refine (Reports.lift htarget).bind_ok fun t ht => ?_
  refine (reports_targetExpand hd (h.target ht) _ _).bind fun x => ?_
  exact (Reports.register hd).bind fun _ => .pure x

theorem reports_expandListed {scope : List String} {d : Declaration} {template : Option Template}
    {make : List TypeExpr → Expansion Declaration} (hd : P d.span)
    (hmake : ∀ bindings, Reports P (make bindings)) :
    Reports P (expandListed scope d template make) := by
  refine .forEach fun bindings _ => (hmake bindings).bind fun x => ?_
  exact (Reports.register hd).bind fun _ => .pure x

section Content

variable {content : Content}

mutual

theorem reports_expandDeclaration (h : content.Stands P) (scope : List String) (d : Declaration)
    (hd : Content.Stands P [d]) :
    Reports P (expandDeclaration (TypedefIndex.ofContent content) scope d) := by
  have hself : d.Stands P := hd.mem (List.mem_singleton_self d)
  have hspan := hself.span
  cases d with
  | space name inner span =>
    have hinner : Content.Stands P inner := hd.content (List.mem_singleton_self _)
    rw [expandDeclaration]
    exact (reports_expandContent h (scope ++ [name]) inner hinner).bind fun inner => .pure _
  | cls c =>
    rw [expandDeclaration]
    exact reports_expandListed hspan fun bindings =>
      (reports_expand hspan hself bindings none).bind fun x => .pure _
  | function d =>
    rw [expandDeclaration]
    exact reports_expandListed hspan fun bindings =>
      (Reports.lift (errorsAt_function hspan hspan bindings none)).bind fun x => .pure _
  | var d =>
    rw [expandDeclaration]
    exact reports_expandListed hspan fun bindings =>
      (Reports.lift (errorsAt_variable hspan bindings none)).bind fun x => .pure _
  | forward d =>
    rw [expandDeclaration]
    split
    · exact reports_expandListed hspan fun bindings =>
        (Reports.lift (errorsAt_forward hspan hspan bindings none)).bind fun x => .pure _
    · exact .pure _
  | typedef d =>
    rw [expandDeclaration]
    exact (reports_expandTypedef h hspan).bind fun x => .pure _
  | inclusion d =>
    rw [expandDeclaration]
    exact .pure _
  | enumeration d =>
    rw [expandDeclaration]
    exact .pure _

/-- All errors in the expansion of declarations are at their places. -/
theorem reports_expandContent (h : content.Stands P) (scope : List String)
    (ds : List Declaration) (hds : Content.Stands P ds) :
    Reports P (expandContent (TypedefIndex.ofContent content) scope ds) := by
  cases ds with
  | nil =>
    rw [expandContent]
    exact .pure _
  | cons d ds =>
    rw [expandContent]
    have hd : Content.Stands P [d] := fun path e he => hds path e (he.mono (by simp))
    refine (reports_expandDeclaration h scope d hd).bind fun here => ?_
    exact (reports_expandContent h scope ds hds.tail).bind fun rest => .pure _

end

end Content

/-- All errors in the expansion of a file are at places of its declarations and members, under any
policy. -/
theorem Interface.report_of_instantiate {m : Interface} (h : m.content.Stands P)
    {policy : CollisionPolicy} {e : ExpansionError} (he : m.instantiate policy = .error e) :
    P e.span := by
  have hreports := (reports_expandContent h [] m.content h).settle policy
  unfold Interface.instantiate at he
  dsimp only at he
  cases hrun : (expandContent (.ofContent m.content) [] m.content).settle policy with
  | error e' =>
    rw [hrun] at he
    cases he
    exact hreports _ hrun
  | ok ds =>
    rw [hrun] at he
    cases he

/-! ## Whole texts -/

/-- All places in an error. -/
def Failure.spans : Failure → List Span
  | .lex e => [e.span]
  | .parse es => es.map ParseError.span
  | .expansion e => [e.span]

/-- All places in a file that is read are real ones. -/
theorem Content.Placed.stands {source : String} {ds : Content} (h : ds.Placed source) :
    ds.Stands (Span.IsReal source) := by
  intro path d hd
  cases d with
  | cls c =>
    obtain ⟨head, ms, hc, -, hms⟩ := h.members hd
    refine ⟨h.real hd, fun m hm => (hms m ?_).1⟩
    rw [hc] at hm
    exact head.members_close ms c.span hm
  | _ => exact h.real hd

namespace Interface

/-- All places that are reported are real: those of declarations and members, which stand one behind
the other inside what contains them, those of syntax errors, and those of all errors in the
expansion, whatever becomes of collisions. -/
theorem places (source : String) :
    (∀ m, parse source = .ok m → m.content.Placed source) ∧
      (∀ es, parse source = .error es → ∀ e ∈ es, e.span.IsReal source) ∧
      ∀ policy failure, wrap policy source = .error failure →
        ∀ a ∈ failure.spans, a.IsReal source := by
  refine ⟨fun m hm => placed_of_parse hm, fun es hes => isReal_of_parse_error hes, ?_⟩
  intro policy failure hf
  unfold wrap at hf
  cases hparse : parse source with
  | error es =>
    rw [hparse] at hf
    cases hf
    exact List.forall_mem_map.2 (isReal_of_parse_error hparse)
  | ok m =>
    rw [hparse] at hf
    have hstands := (placed_of_parse hparse).stands
    cases hrun : m.instantiate policy with
    | error e =>
      have hf' : (m.instantiate policy).mapError Failure.expansion = .error failure := hf
      rw [hrun] at hf'
      cases hf'
      simpa [Failure.spans] using report_of_instantiate hstands hrun
    | ok m' =>
      have hf' : (m.instantiate policy).mapError Failure.expansion = .error failure := hf
      rw [hrun] at hf'
      cases hf'

/-- A file with a class in a namespace and a function in which `This` stands for no class. -/
def lostThis : String := "namespace geo \x7b\n  class Grid \x7b Grid(int n); \x7d;\n\x7d\nThis copy();"

/-- A class without a name. -/
def nameless : String := "namespace geo \x7b class \x7b \x7d; \x7d"

/-- The first file is read but not expanded, and the second one is not read. -/
theorem lostThis_places : ∃ m es failure,
    parse lostThis = .ok m ∧ m.content.Placed lostThis ∧
    parse nameless = .error es ∧ (∀ e ∈ es, e.span.IsReal nameless) ∧
    wrap .warn lostThis = .error failure ∧ ∀ a ∈ failure.spans, a.IsReal lostThis := by
  have hread : (parse lostThis).toOption.isSome = true := by decide +kernel
  have hfail : (parse nameless).toOption.isSome = false := by decide +kernel
  have hwrap : (wrap .warn lostThis).toOption.isSome = false := by decide +kernel
  obtain ⟨hm, -, hf⟩ := places lostThis
  obtain ⟨-, hes, -⟩ := places nameless
  cases hparse : parse lostThis with
  | error es => rw [hparse] at hread; cases hread
  | ok m =>
    cases hparse' : parse nameless with
    | ok m => rw [hparse'] at hfail; cases hfail
    | error es =>
      cases hrun : wrap .warn lostThis with
      | ok m => rw [hrun] at hwrap; cases hwrap
      | error failure =>
        exact ⟨m, es, failure, rfl, hm m hparse, rfl, hes es hparse', rfl, hf .warn failure hrun⟩

end Interface

end TemplateIdl
