import TemplateIdl.Proofs.Expand.Held
import TemplateIdl.Proofs.Token.Literal

/-!
# Clash — what the strict policy refuses

The strict policy compares names that are registered under one key. The key of a namespace is its
path. That of a class is put together from the namespaces of its template and its own name, and it
does not tell where the class stands.

* `Clashing` and `Content.Clash`, items of one name that are registered under one key with different
  descriptions, and `Content.SharesScope`, items of one name in one scope;
* `exists_registration_iff_of_entries` and `Interface.entries_of_instantiate`, what is registered
  belongs to the items of the expanded file;
* `Interface.instantiate_error_clash`, so a file that can be expanded is refused exactly if there
  are such items in it, and they are named in the error;
* `Interface.exists_same_scope_of_instantiate`, they stand in one scope where keys tell scopes apart;
* `Interface.not_forall_same_scope`, elsewhere they need not.
-/

namespace TemplateIdl

/-- Two items are called `name` and are registered under one key, but the one is described as
`first` and the other one as `second`. -/
def Clashing (x y : NameScope × NamedItem) (name first second : String) : Prop :=
  x.1.key = y.1.key ∧ x.2.name = name ∧ y.2.name = name ∧
    x.2.description? = some first ∧ y.2.description? = some second ∧ first ≠ second

/-- Two items of the declarations clash. -/
def Content.Clash (ds : Content) (name first second : String) : Prop :=
  ∃ x ∈ contentHeld [] ds, ∃ y ∈ contentHeld [] ds, Clashing x y name first second

/-- Two different items of one scope are called `name`. -/
def Content.SharesScope (ds : Content) (name : String) : Prop :=
  ∃ scope a b, (scope, a) ∈ contentHeld [] ds ∧ (scope, b) ∈ contentHeld [] ds ∧ a ≠ b ∧
    a.name = name ∧ b.name = name

theorem record?_eq_some_iff {x : NameScope × NamedItem} {key : List String}
    {name description : String} :
    record? x = some (key, name, description) ↔
      x.1.key = key ∧ x.2.name = name ∧ x.2.description? = some description := by
  rw [record?, Option.map_eq_some_iff]
  constructor
  · rintro ⟨d, hd, he⟩
    cases he
    exact ⟨rfl, rfl, hd⟩
  · rintro ⟨rfl, rfl, hd⟩
    exact ⟨description, hd, rfl⟩

/-- Where a log has an entry for each item that is registered, what is registered belongs to an
item. -/
theorem exists_registration_iff_of_entries {log : List Registration}
    {items : List (NameScope × NamedItem)}
    (h : log.map Registration.entry = items.filterMap record?) {key : List String}
    {name description : String} :
    (∃ r ∈ log, r.scope = key ∧ r.name = name ∧ r.description = description) ↔
      ∃ x ∈ items, x.1.key = key ∧ x.2.name = name ∧ x.2.description? = some description := by
  have hentry : (key, name, description) ∈ log.map Registration.entry ↔
      (key, name, description) ∈ items.filterMap record? := by
    rw [h]
  simpa only [List.mem_map, List.mem_filterMap, record?_eq_some_iff, Registration.entry,
    Prod.mk.injEq] using hentry

namespace Expansion

variable {α : Type} {x : Expansion α} {a : α}

/-- An expansion that succeeds by itself is refused for two registrations. -/
theorem exists_of_settle_eq_error (hx : x.outcome = .ok a) {e : ExpansionError}
    (h : x.settle .error = .error e) :
    ∃ r ∈ x.log, ∃ r' ∈ x.log, r.scope = r'.scope ∧ r.name = r'.name ∧
      r.description ≠ r'.description ∧
      e = ⟨.nameCollision r'.name r.description r'.description, r'.span⟩ := by
  unfold settle at h
  cases hrun : (NameRegistry.empty .error).registerAll x.log with
  | ok g =>
    rw [hrun] at h
    cases hx.symm.trans h
  | error e' =>
    rw [hrun] at h
    cases h
    obtain ⟨r', hr', first, hne, he, hfirst⟩ :=
      NameRegistry.exists_of_registerAll_eq_error hrun
    rcases hfirst with hnone | ⟨r, hr, hscope, hname, rfl⟩
    · cases hnone
    · exact ⟨r, hr, r', hr', hscope, hname, hne, he⟩

/-- Two registrations of one name with different descriptions are refused. -/
theorem exists_settle_eq_error {r r' : Registration} (hr : r ∈ x.log) (hr' : r' ∈ x.log)
    (hscope : r.scope = r'.scope) (hname : r.name = r'.name)
    (hne : r.description ≠ r'.description) : ∃ e, x.settle .error = .error e := by
  cases h : x.settle .error with
  | error e => exact ⟨e, rfl⟩
  | ok a => exact absurd (description_eq_of_settle h hr hr' hscope hname) hne

end Expansion

/-! ## Whole files -/

namespace Interface

variable {source : String} {m out : Interface}

theorem instantiate_eq_error {policy : CollisionPolicy} {e : ExpansionError} :
    m.instantiate policy = .error e ↔
      (expandContent (.ofContent m.content) [] m.content).settle policy = .error e := by
  rw [instantiate]
  cases (expandContent (.ofContent m.content) [] m.content).settle policy with
  | error e' => rw [Except.map, Except.error.injEq, Except.error.injEq]
  | ok content => simp [Except.map]

/-- What is registered for a file that can be expanded is what its items say in the result. -/
theorem entries_of_instantiate (hm : parse source = .ok m) {policy : CollisionPolicy}
    (hout : m.instantiate policy = .ok out) :
    (expandContent (.ofContent m.content) [] m.content).log.map Registration.entry =
      (contentHeld [] out.content).filterMap record? := by
  obtain ⟨content, hc, rfl⟩ := except_map_ok hout
  exact registers_expandContent _ _ (wellFormed_of_parse hm) content (Expansion.outcome_of_settle hc)

/-- What the strict policy refuses is a clash of two items. -/
theorem exists_clash_of_instantiate (hm : parse source = .ok m)
    (hout : m.instantiate .warn = .ok out) {e : ExpansionError}
    (he : m.instantiate .error = .error e) :
    ∃ name first second, e.fault = .nameCollision name first second ∧
      out.content.Clash name first second := by
  have hentries := entries_of_instantiate hm hout
  obtain ⟨content, hc, rfl⟩ := except_map_ok hout
  obtain ⟨r, hr, r', hr', hscope, hname, hne, rfl⟩ :=
    Expansion.exists_of_settle_eq_error (Expansion.outcome_of_settle hc)
      (instantiate_eq_error.1 he)
  obtain ⟨x, hx, hxkey, hxname, hxd⟩ :=
    (exists_registration_iff_of_entries hentries).1 ⟨r, hr, rfl, rfl, rfl⟩
  obtain ⟨y, hy, hykey, hyname, hyd⟩ :=
    (exists_registration_iff_of_entries hentries).1 ⟨r', hr', rfl, rfl, rfl⟩
  have hkey : x.1.key = y.1.key := by rw [hxkey, hykey, hscope]
  exact ⟨r'.name, r.description, r'.description, rfl, x, hx, y, hy, hkey, hxname.trans hname,
    hyname, hxd, hyd, hne⟩

/-- A clash of two items is refused. -/
theorem exists_error_of_clash (hm : parse source = .ok m) (hout : m.instantiate .warn = .ok out)
    {name first second : String} (h : out.content.Clash name first second) :
    ∃ e, m.instantiate .error = .error e := by
  have hentries := entries_of_instantiate hm hout
  obtain ⟨x, hx, y, hy, hkey, hxname, hyname, hxd, hyd, hne⟩ := h
  obtain ⟨r, hr, hrscope, hrname, rfl⟩ :=
    (exists_registration_iff_of_entries hentries).2 ⟨x, hx, rfl, hxname, hxd⟩
  obtain ⟨r', hr', hrscope', hrname', rfl⟩ :=
    (exists_registration_iff_of_entries hentries).2 ⟨y, hy, hkey.symm, hyname, hyd⟩
  have hscope : r.scope = r'.scope := hrscope.trans hrscope'.symm
  have hname : r.name = r'.name := hrname.trans hrname'.symm
  obtain ⟨e, he⟩ := Expansion.exists_settle_eq_error hr hr' hscope hname hne
  exact ⟨e, instantiate_eq_error.2 he⟩

/-- A file that is expanded as long as collisions are only reported is refused by the strict policy
exactly if two of its items clash, and the error names two items that do. -/
theorem instantiate_error_clash (hm : parse source = .ok m)
    (hout : m.instantiate .warn = .ok out) :
    (∀ e, m.instantiate .error = .error e → ∃ name first second,
      e.fault = .nameCollision name first second ∧ out.content.Clash name first second) ∧
    ((∃ name first second, out.content.Clash name first second) →
      ∃ e, m.instantiate .error = .error e) := by
  constructor
  · intro e he
    exact exists_clash_of_instantiate hm hout he
  · intro h
    obtain ⟨name, first, second, hclash⟩ := h
    exact exists_error_of_clash hm hout hclash

/-- Where no two scopes share a key, the strict policy only refuses a name that two items of one
scope have. -/
theorem exists_same_scope_of_instantiate (hm : parse source = .ok m)
    (hout : m.instantiate .warn = .ok out)
    (hkeys : ∀ x ∈ contentHeld [] out.content, ∀ y ∈ contentHeld [] out.content,
      x.1.key = y.1.key → x.1 = y.1) {e : ExpansionError}
    (he : m.instantiate .error = .error e) :
    ∃ name first second, e.fault = .nameCollision name first second ∧
      out.content.SharesScope name := by
  obtain ⟨name, first, second, hfault, hclash⟩ := exists_clash_of_instantiate hm hout he
  obtain ⟨⟨scope, a⟩, hx, ⟨scope', b⟩, hy, hkey, ha, hb, hda, hdb, hne⟩ := hclash
  have hscope : scope = scope' := hkeys _ hx _ hy hkey
  have hab : a ≠ b := by
    intro hab
    rw [hab, hdb] at hda
    exact hne (Option.some.inj hda).symm
  exact ⟨name, first, second, hfault, scope, a, b, hx, hscope ▸ hy, hab, ha, hb⟩

end Interface

/-! ## A collision in two scopes -/

/-- The scopes of all items that are called `name`, once for each item. -/
def Content.scopesOf (ds : Content) (name : String) : List NameScope :=
  ((contentHeld [] ds).filter fun x => x.2.name == name).map Prod.fst

/-- Where the scopes of all items with a name are different, no two items of one scope share it. -/
theorem Content.not_sharesScope_of_nodup {ds : Content} {name : String}
    (h : (ds.scopesOf name).Nodup) : ¬ ds.SharesScope name := by
  rintro ⟨scope, a, b, ha, hb, hne, haname, hbname⟩
  have hfound : ∀ {x : NamedItem}, (scope, x) ∈ contentHeld [] ds → x.name = name →
      (scope, x) ∈ (contentHeld [] ds).filter fun x => x.2.name == name := by
    intro x hx hname
    exact List.mem_filter.2 ⟨hx, beq_iff_eq.2 hname⟩
  have heq := List.inj_on_of_nodup_map h (hfound ha haname) (hfound hb hbname) rfl
  exact hne (Prod.mk.inj heq).2

namespace Interface

/-- Two templates, of which instances with one name stand in two namespaces. -/
def twinFile : String :=
  "template<T> class A \x7b template<U = \x7ba::V\x7d> void f(U u); \x7d;"
    ++ " template<T> class B \x7b template<U = \x7bb::V\x7d> void f(U u); \x7d;"
    ++ " namespace x \x7b typedef A<int> I; \x7d namespace y \x7b typedef B<int> I; \x7d"

/-- Each instance has one method, and one of the two methods is refused. -/
theorem twinFile_refused : ∃ (m out : Interface) (span : Span), parse twinFile = .ok m ∧
    m.instantiate .warn = .ok out ∧ (out.content.scopesOf "fV").Nodup ∧
    m.instantiate .error = .error ⟨.nameCollision "fV" "f<a::V>" "f<b::V>", span⟩ := by
  have hrun : ((parse twinFile).toOption.any fun m =>
      ((m.instantiate .warn).toOption.any fun out => decide (out.content.scopesOf "fV").Nodup) &&
        match m.instantiate .error with
        | .error e => e.fault == .nameCollision "fV" "f<a::V>" "f<b::V>"
        | .ok _ => false) = true := by
    have hchars : twinFile = String.ofList _ :=
      append_eq_ofList (append_eq_ofList rfl rfl) rfl
    rw [hchars, parse, parseWith, Lexed.ofSource_ofList]
    decide +kernel
  obtain ⟨m, hm, hchecks⟩ := (Option.any_eq_true _ _).1 hrun
  rw [Bool.and_eq_true, Option.any_eq_true] at hchecks
  obtain ⟨⟨out, hout, hscopes⟩, herror⟩ := hchecks
  cases hrefused : m.instantiate .error with
  | ok x =>
    rw [hrefused] at herror
    cases herror
  | error e =>
    rw [hrefused] at herror
    obtain ⟨fault, span⟩ := e
    have hfault : fault = .nameCollision "fV" "f<a::V>" "f<b::V>" := beq_iff_eq.1 herror
    exact ⟨m, out, span, except_ok_of_toOption hm, except_ok_of_toOption hout,
      of_decide_eq_true hscopes, by rw [hrefused, hfault]⟩

/-- So a name can be refused that nothing else has in any scope. -/
theorem not_forall_same_scope :
    ¬ ∀ (source : String) (m out : Interface) (name first second : String) (span : Span),
      parse source = .ok m → m.instantiate .warn = .ok out →
      m.instantiate .error = .error ⟨.nameCollision name first second, span⟩ →
      ¬ (out.content.scopesOf name).Nodup := by
  intro hall
  obtain ⟨m, out, span, hm, hout, hscopes, herror⟩ := twinFile_refused
  exact hall twinFile m out _ _ _ span hm hout herror hscopes

end Interface

end TemplateIdl
