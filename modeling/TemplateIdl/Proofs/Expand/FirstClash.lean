import TemplateIdl.Proofs.Expand.Clash
import TemplateIdl.Proofs.Expand.Policy
import TemplateIdl.Proofs.Expand.Precedence

/-!
# FirstClash — which collision the strict policy reports

Names are registered in the order in which their items stand in the expanded file, so the collision
that is reported can be told from that file, too.

* `NameRegistry.registerAll_empty_eq_error_iff`, a log is refused for its first registration that
  does not fit one before it;
* `FirstClash`, the first item that clashes with one before it;
* `exists_registerAll_eq_error_iff`, what a log is refused for is the first clash of its items;
* `Interface.instantiate_error_firstClash`, so the strict policy reports the first clash of a file,
  and two items of one scope share the reported name exactly if they share that of the first clash;
* `Interface.twinFile_firstClash`, a file in which they do not.
-/

namespace TemplateIdl

/-! ## Logs -/

namespace NameRegistry

variable {g g' : NameRegistry} {log : List Registration} {e : ExpansionError}

/-- What is left of a log that is not refused are the names after all calls. -/
theorem eq_of_registerAll (h : g.registerAll log = .ok g') : g' = (g.registerEach log).2 := by
  rw [registerAll_eq] at h
  split at h
  · cases h
  · cases h
    rfl

/-- A log is refused for one registration, and all before it have passed. -/
theorem exists_conflict?_of_registerAll (h : g.registerAll log = .error e) :
    ∃ before r after g', log = before ++ r :: after ∧ g.registerAll before = .ok g' ∧
      g'.conflict? r = some e := by
  induction log generalizing g with
  | nil => cases h
  | cons r log ih =>
    unfold registerAll at h
    cases hc : g.conflict? r with
    | some e' =>
      rw [hc] at h
      cases h
      exact ⟨[], r, log, g, rfl, rfl, hc⟩
    | none =>
      rw [hc] at h
      obtain ⟨before, r', after, g', rfl, hg', he⟩ := ih h
      refine ⟨r :: before, r', after, g', rfl, ?_, he⟩
      unfold registerAll
      rw [hc]
      exact hg'

/-- From the start, a log is refused for the first registration that has the name of one before it
and another description. -/
theorem registerAll_empty_eq_error_iff :
    (empty .error).registerAll log = .error e ↔
      ∃ before r after, log = before ++ r :: after ∧ Consistent before ∧
        ∃ r' ∈ before, r'.scope = r.scope ∧ r'.name = r.name ∧ r'.description ≠ r.description ∧
          e = ⟨.nameCollision r.name r'.description r.description, r.span⟩ := by
  constructor
  · intro h
    obtain ⟨before, r, after, g', rfl, hg', he⟩ := exists_conflict?_of_registerAll h
    have hconsistent : Consistent before :=
      ((registerAll_empty_iff .error before).1 ⟨g', hg'⟩).resolve_left fun hne => hne rfl
    obtain ⟨first, hfirst, hne, rfl⟩ := conflict?_eq_some he
    -- the description that was there first came with a registration of the prefix
    rw [eq_of_registerAll hg', (follows_registerEach (by decide) before).first,
      Option.map_eq_some_iff] at hfirst
    obtain ⟨r', hr', rfl⟩ := hfirst
    have hfound := List.find?_some hr'
    have hkey : r'.key = (r.scope, r.name) := beq_iff_eq.1 hfound
    obtain ⟨hscope, hname⟩ := Prod.mk.inj hkey
    exact ⟨before, r, after, rfl, hconsistent, r', List.mem_of_find?_eq_some hr', hscope, hname,
      hne, rfl⟩
  · rintro ⟨before, r, after, rfl, hconsistent, r', hr', hscope, hname, hne, rfl⟩
    obtain ⟨g', hg'⟩ := (registerAll_empty_iff .error before).2 (.inr hconsistent)
    have hpolicy : g'.policy = .error := by
      rw [eq_of_registerAll hg', policy_registerEach]
      rfl
    have hfirst : g'.first? r.scope r.name = some r'.description := by
      rw [← hscope, ← hname]
      exact (first?_registerAll rfl hg').2 r' hr'
    have hconflict := conflict?_eq_some_iff.2 ⟨hpolicy, _, hfirst, hne, rfl⟩
    rw [registerAll_append, hg', Except.bind, registerAll, hconflict]

end NameRegistry

/-! ## Items -/

/-- The first item that clashes with one before it: among those before it there are no two that
clash. -/
def FirstClash (items : List (NameScope × NamedItem)) (name first second : String) : Prop :=
  ∃ before y after, items = before ++ y :: after ∧
    (∀ a ∈ before, ∀ b ∈ before, ∀ name first second, ¬ Clashing a b name first second) ∧
    ∃ x ∈ before, Clashing x y name first second

section

variable {log : List Registration} {items : List (NameScope × NamedItem)}

/-- The items up to the one that a registration belongs to. -/
theorem exists_item_of_entries {before after : List Registration} {r : Registration}
    (h : (before ++ r :: after).map Registration.entry = items.filterMap record?) :
    ∃ before' y after', items = before' ++ y :: after' ∧
      before.map Registration.entry = before'.filterMap record? ∧ record? y = some r.entry := by
  rw [List.map_append, List.map_cons, eq_comm, List.filterMap_eq_append_iff] at h
  obtain ⟨front, rest, rfl, hfront, hrest⟩ := h
  obtain ⟨silent, y, after', rfl, hsilent, hy, -⟩ := List.filterMap_eq_cons_iff.1 hrest
  refine ⟨front ++ silent, y, after', by rw [List.append_assoc], ?_, hy⟩
  -- nothing is registered for the items between the registrations
  rw [List.filterMap_append, hfront, List.filterMap_eq_nil_iff.2 hsilent, List.append_nil]

/-- The registrations up to the one that belongs to an item. -/
theorem exists_registration_of_entries {before after : List (NameScope × NamedItem)}
    {y : NameScope × NamedItem} {entry : NameEntry}
    (h : log.map Registration.entry = (before ++ y :: after).filterMap record?)
    (hy : record? y = some entry) :
    ∃ before' r after', log = before' ++ r :: after' ∧
      before'.map Registration.entry = before.filterMap record? ∧ r.entry = entry := by
  rw [List.filterMap_append, List.filterMap_cons_some hy, List.map_eq_append_iff] at h
  obtain ⟨before', rest, rfl, hbefore, hrest⟩ := h
  obtain ⟨r, after', rfl, hr, -⟩ := List.map_eq_cons_iff.1 hrest
  exact ⟨before', r, after', rfl, hbefore, hr⟩

/-- Registrations are consistent if none of their items clash. -/
theorem consistent_iff_of_entries (h : log.map Registration.entry = items.filterMap record?) :
    NameRegistry.Consistent log ↔
      ∀ a ∈ items, ∀ b ∈ items, ∀ name first second, ¬ Clashing a b name first second := by
  constructor
  · rintro hlog a ha b hb name first second ⟨hkey, haname, hbname, hda, hdb, hne⟩
    obtain ⟨r, hr, hscope, hname, rfl⟩ :=
      (exists_registration_iff_of_entries h).2 ⟨a, ha, hkey, haname, hda⟩
    obtain ⟨r', hr', hscope', hname', rfl⟩ :=
      (exists_registration_iff_of_entries h).2 ⟨b, hb, rfl, hbname, hdb⟩
    exact hne (hlog r hr r' hr' (hscope.trans hscope'.symm) (hname.trans hname'.symm))
  · intro hitems r hr r' hr' hscope hname
    obtain ⟨a, ha, hakey, haname, hda⟩ :=
      (exists_registration_iff_of_entries h).1 ⟨r, hr, rfl, rfl, rfl⟩
    obtain ⟨b, hb, hbkey, hbname, hdb⟩ :=
      (exists_registration_iff_of_entries h).1 ⟨r', hr', rfl, rfl, rfl⟩
    apply Decidable.byContradiction
    intro hne
    have hkey : a.1.key = b.1.key := by rw [hakey, hbkey, hscope]
    exact hitems a ha b hb _ _ _ ⟨hkey, haname.trans hname, hbname, hda, hdb, hne⟩

/-- What a log is refused for is the first clash of its items. -/
theorem exists_registerAll_eq_error_iff
    (h : log.map Registration.entry = items.filterMap record?) {name first second : String} :
    (∃ span, (NameRegistry.empty .error).registerAll log =
        .error ⟨.nameCollision name first second, span⟩) ↔
      FirstClash items name first second := by
  constructor
  · rintro ⟨span, herror⟩
    obtain ⟨before, r, after, rfl, hconsistent, r', hr', hscope, hname, hne, he⟩ :=
      NameRegistry.registerAll_empty_eq_error_iff.1 herror
    cases he
    obtain ⟨before', y, after', rfl, hbefore, hy⟩ := exists_item_of_entries h
    obtain ⟨hykey, hyname, hyd⟩ := record?_eq_some_iff.1 hy
    obtain ⟨x, hx, hxkey, hxname, hxd⟩ :=
      (exists_registration_iff_of_entries hbefore).1 ⟨r', hr', rfl, rfl, rfl⟩
    have hkey : x.1.key = y.1.key := by rw [hxkey, hykey, hscope]
    exact ⟨before', y, after', rfl, (consistent_iff_of_entries hbefore).1 hconsistent, x, hx, hkey,
      hxname.trans hname, hyname, hxd, hyd, hne⟩
  · rintro ⟨before, y, after, rfl, hnone, x, hx, hkey, hxname, hyname, hxd, hyd, hne⟩
    obtain ⟨before', r, after', rfl, hbefore, hr⟩ :=
      exists_registration_of_entries h (record?_eq_some_iff.2 ⟨rfl, hyname, hyd⟩)
    obtain ⟨hscope, hname, rfl⟩ : r.scope = y.1.key ∧ r.name = name ∧ r.description = second := by
      simpa only [Registration.entry, Prod.mk.injEq] using hr
    obtain ⟨r', hr', hscope', hname', rfl⟩ :=
      (exists_registration_iff_of_entries hbefore).2 ⟨x, hx, hkey, hxname, hxd⟩
    refine ⟨r.span, NameRegistry.registerAll_empty_eq_error_iff.2
      ⟨before', r, after', rfl, (consistent_iff_of_entries hbefore).2 hnone, r', hr',
        hscope'.trans hscope.symm, hname'.trans hname.symm, hne, ?_⟩⟩
    rw [hname]

end

namespace Interface

variable {source : String} {m out : Interface}

/-- An error of the strict policy is one of the check of the names. -/
theorem instantiate_eq_error_iff (hout : m.instantiate .warn = .ok out) {e : ExpansionError} :
    m.instantiate .error = .error e ↔
      (NameRegistry.empty .error).registerAll (expandContent (.ofContent m.content) [] m.content).log
        = .error e := by
  obtain ⟨content, hc, rfl⟩ := except_map_ok hout
  rw [instantiate_eq_error, Expansion.settle, Expansion.outcome_of_settle hc]
  cases (NameRegistry.empty .error).registerAll _ with
  | error e' => simp
  | ok g => simp

/-- Whether a collision is reported, and which one, can be told from the expanded file. -/
theorem exists_instantiate_eq_error_iff (hm : parse source = .ok m)
    (hout : m.instantiate .warn = .ok out) {name first second : String} :
    (∃ span, m.instantiate .error = .error ⟨.nameCollision name first second, span⟩) ↔
      FirstClash (contentHeld [] out.content) name first second := by
  simp only [instantiate_eq_error_iff hout]
  exact exists_registerAll_eq_error_iff (entries_of_instantiate hm hout)

/-- **The strict policy reports the first clash.** Where a file is expanded as long as collisions
are only reported, the strict policy refuses it exactly for the first item that clashes with one
before it, in the order in which they stand in the expanded file, and the error has their name and
their descriptions. So whatever is reported is a name that two items of one scope share exactly if
the first clash is about such a name. -/
theorem instantiate_error_firstClash (hm : parse source = .ok m)
    (hout : m.instantiate .warn = .ok out) :
    (∀ e, m.instantiate .error = .error e → ∃ name first second,
      e.fault = .nameCollision name first second ∧
        FirstClash (contentHeld [] out.content) name first second) ∧
    (∀ name first second, FirstClash (contentHeld [] out.content) name first second →
      ∃ span, m.instantiate .error = .error ⟨.nameCollision name first second, span⟩) ∧
    ((∀ name first second span,
        m.instantiate .error = .error ⟨.nameCollision name first second, span⟩ →
          out.content.SharesScope name) ↔
      ∀ name first second, FirstClash (contentHeld [] out.content) name first second →
        out.content.SharesScope name) := by
  refine ⟨?_, ?_, ?_⟩
  · intro e he
    obtain ⟨name, first, second, hfault, -⟩ := exists_clash_of_instantiate hm hout he
    have heq : e = ⟨.nameCollision name first second, e.span⟩ := by rw [← hfault]
    exact ⟨name, first, second, hfault,
      (exists_instantiate_eq_error_iff hm hout).1 ⟨e.span, heq ▸ he⟩⟩
  · intro name first second h
    exact (exists_instantiate_eq_error_iff hm hout).2 h
  · simp only [← exists_instantiate_eq_error_iff hm hout, forall_exists_index]

/-- The first clash is that of the two methods, and their classes have no other method. -/
theorem twinFile_firstClash : ∃ m out : Interface, parse twinFile = .ok m ∧
    m.instantiate .warn = .ok out ∧
    FirstClash (contentHeld [] out.content) "fV" "f<a::V>" "f<b::V>" ∧
    ¬ out.content.SharesScope "fV" := by
  obtain ⟨m, out, span, hm, hout, hscopes, herror⟩ := twinFile_refused
  obtain ⟨name, first, second, hfault, hfirst⟩ :=
    (instantiate_error_firstClash hm hout).1 _ herror
  cases hfault
  exact ⟨m, out, hm, hout, hfirst, Content.not_sharesScope_of_nodup hscopes⟩

end Interface

end TemplateIdl
