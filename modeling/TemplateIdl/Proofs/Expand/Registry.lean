import TemplateIdl.Expand.Expansion

/-!
# Registry — what the strict policy lets pass

* `NameRegistry.first?_record`, the description of a name after another registration;
* `NameRegistry.first?_registerAll`, all registrations of a run without refusals have the
  description that their name came with first;
* `Expansion.description_eq_of_settle`, so one name in one scope has one description in the log of
  an expansion that succeeds;
* `NameRegistry.exists_of_registerAll_eq_error`, what is refused has the name of something else;
* `NameRegistry.registerAll_empty_iff` and `Expansion.settle_eq_ok_iff`, nothing else is asked of a
  log, and nothing at all under the other policies.
-/

namespace TemplateIdl

namespace NameRegistry

variable {g g' : NameRegistry} {r : Registration}

/-! ## One registration -/

@[simp] theorem policy_record (g : NameRegistry) (r : Registration) :
    (g.record r).policy = g.policy := by
  unfold record
  split <;> rfl

/-- A name keeps its description, and the name registered has the new one if it had none. -/
theorem first?_record (hp : g.policy ≠ .ignore) (r : Registration) (scope : List String)
    (name : String) :
    (g.record r).first? scope name = (g.first? scope name).or
      (if (r.scope, r.name) = (scope, name) then some r.description else none) := by
  unfold record
  split
  · next hstays =>
    -- nothing was recorded, since the name is there already
    have hsome := hstays.resolve_left hp
    split
    · next he =>
      cases he
      rw [Option.or_of_isSome hsome]
    · rw [Option.or_none]
  · unfold first?
    rw [List.find?_append, Option.map_or]
    congr 1
    by_cases he : (r.scope, r.name) = (scope, name)
    · simp [he]
    · simp [he]

/-- What the strict policy lets pass has the description that its name came with first. -/
theorem first?_of_conflict?_eq_none (hp : g.policy = .error) (h : g.conflict? r = none)
    {first : String} (hf : g.first? r.scope r.name = some first) : first = r.description := by
  simp only [conflict?, hp, hf] at h
  by_cases he : first = r.description
  · exact he
  · rw [if_neg he] at h
    cases h

theorem first?_record_self (hp : g.policy = .error) (h : g.conflict? r = none) :
    (g.record r).first? r.scope r.name = some r.description := by
  have hkept : g.policy ≠ .ignore := by simp [hp]
  rw [first?_record hkept, if_pos rfl]
  cases hf : g.first? r.scope r.name with
  | none => rfl
  | some first =>
    rw [first?_of_conflict?_eq_none hp h hf]
    rfl

/-! ## A run -/

/-- Without refusals, names keep their descriptions and all registrations have those. -/
theorem first?_registerAll {log : List Registration} (hp : g.policy = .error)
    (h : g.registerAll log = .ok g') :
    (∀ scope name d, g.first? scope name = some d → g'.first? scope name = some d) ∧
      ∀ r ∈ log, g'.first? r.scope r.name = some r.description := by
  induction log generalizing g with
  | nil =>
    cases h
    exact ⟨fun _ _ _ hd => hd, by simp⟩
  | cons r log ih =>
    unfold registerAll at h
    cases hc : g.conflict? r with
    | some e =>
      rw [hc] at h
      cases h
    | none =>
      rw [hc] at h
      obtain ⟨hkeep, hlog⟩ := ih (by rw [policy_record, hp]) h
      constructor
      · intro scope name d hd
        apply hkeep
        rw [first?_record (by simp [hp]), hd, Option.some_or]
      · intro r' hr'
        rcases List.mem_cons.1 hr' with rfl | hr'
        · exact hkeep _ _ _ (first?_record_self hp hc)
        · exact hlog r' hr'

/-! ## Refusals -/

/-- Only the strict policy refuses registrations. -/
theorem conflict?_eq_none_of_ne (hp : g.policy ≠ .error) (r : Registration) :
    g.conflict? r = none := by
  unfold conflict?
  split
  · next h _ => exact absurd h hp
  · rfl

theorem exists_registerAll_of_ne (hp : g.policy ≠ .error) (log : List Registration) :
    ∃ g', g.registerAll log = .ok g' := by
  induction log generalizing g with
  | nil => exact ⟨g, rfl⟩
  | cons r log ih =>
    unfold registerAll
    rw [conflict?_eq_none_of_ne hp]
    apply ih
    rw [policy_record]
    exact hp

theorem policy_of_registerAll_eq_error {log : List Registration} {e : ExpansionError}
    (h : g.registerAll log = .error e) : g.policy = .error := by
  apply Decidable.byContradiction
  intro hp
  obtain ⟨g', hg'⟩ := exists_registerAll_of_ne hp log
  rw [hg'] at h
  cases h

theorem conflict?_eq_some {e : ExpansionError} (h : g.conflict? r = some e) :
    ∃ first, g.first? r.scope r.name = some first ∧ first ≠ r.description ∧
      e = ⟨.nameCollision r.name first r.description, r.span⟩ := by
  unfold conflict? at h
  split at h
  · next first _ hf =>
    by_cases he : first = r.description
    · rw [if_pos he] at h
      cases h
    · rw [if_neg he] at h
      cases h
      exact ⟨first, hf, he, rfl⟩
  · cases h

/-- What is refused has the name of something else that was registered, in the run or before. -/
theorem exists_of_registerAll_eq_error {log : List Registration} {e : ExpansionError}
    (h : g.registerAll log = .error e) :
    ∃ r ∈ log, ∃ first, first ≠ r.description ∧
      e = ⟨.nameCollision r.name first r.description, r.span⟩ ∧
      (g.first? r.scope r.name = some first ∨
        ∃ r' ∈ log, r'.scope = r.scope ∧ r'.name = r.name ∧ r'.description = first) := by
  induction log generalizing g with
  | nil => cases h
  | cons r log ih =>
    have hp := policy_of_registerAll_eq_error h
    unfold registerAll at h
    cases hc : g.conflict? r with
    | some e' =>
      rw [hc] at h
      cases h
      obtain ⟨first, hf, hne, he⟩ := conflict?_eq_some hc
      exact ⟨r, List.mem_cons_self, first, hne, he, .inl hf⟩
    | none =>
      rw [hc] at h
      obtain ⟨r', hr', first, hne, he, hfirst⟩ := ih h
      refine ⟨r', List.mem_cons_of_mem _ hr', first, hne, he, ?_⟩
      rcases hfirst with hf | ⟨r'', hr'', hsame⟩
      · -- the name was there before, or it has just been registered
        rw [first?_record (by simp [hp])] at hf
        cases hg : g.first? r'.scope r'.name with
        | some d =>
          rw [hg, Option.some_or] at hf
          exact .inl hf
        | none =>
          rw [hg, Option.none_or] at hf
          by_cases hkey : (r.scope, r.name) = (r'.scope, r'.name)
          · rw [if_pos hkey] at hf
            obtain ⟨hscope, hname⟩ := Prod.mk.inj hkey
            exact .inr ⟨r, List.mem_cons_self, hscope, hname, Option.some.inj hf⟩
          · rw [if_neg hkey] at hf
            cases hf
      · exact .inr ⟨r'', List.mem_cons_of_mem _ hr'', hsame⟩

/-! ## Runs without refusals -/

/-- Names have the descriptions that they came with before. -/
def Fits (g : NameRegistry) (log : List Registration) : Prop :=
  ∀ r ∈ log, ∀ d, g.first? r.scope r.name = some d → d = r.description

/-- One name in one scope has one description. -/
def Consistent (log : List Registration) : Prop :=
  ∀ r ∈ log, ∀ r' ∈ log, r.scope = r'.scope → r.name = r'.name → r.description = r'.description

theorem conflict?_eq_none_of_first?
    (h : ∀ d, g.first? r.scope r.name = some d → d = r.description) : g.conflict? r = none := by
  unfold conflict?
  split
  · next first _ hf => rw [if_pos (h first hf)]
  · rfl

theorem Fits.record {log : List Registration} (hf : g.Fits log) (hc : Consistent (r :: log))
    (hp : g.policy ≠ .ignore) : (g.record r).Fits log := by
  intro r' hr' d hd
  rw [first?_record hp] at hd
  cases hfirst : g.first? r'.scope r'.name with
  | some d' =>
    rw [hfirst, Option.some_or] at hd
    rw [← Option.some.inj hd]
    exact hf r' hr' d' hfirst
  | none =>
    rw [hfirst, Option.none_or] at hd
    by_cases hsame : (r.scope, r.name) = (r'.scope, r'.name)
    · rw [if_pos hsame] at hd
      rw [← Option.some.inj hd]
      obtain ⟨hscope, hname⟩ := Prod.mk.inj hsame
      exact hc r List.mem_cons_self r' (List.mem_cons_of_mem _ hr') hscope hname
    · rw [if_neg hsame] at hd
      cases hd

/-- A consistent log is not refused. -/
theorem exists_registerAll_of_consistent {log : List Registration} (hp : g.policy ≠ .ignore)
    (hf : g.Fits log) (hc : Consistent log) : ∃ g', g.registerAll log = .ok g' := by
  induction log generalizing g with
  | nil => exact ⟨g, rfl⟩
  | cons r log ih =>
    have hnone := conflict?_eq_none_of_first? (hf r List.mem_cons_self)
    have hrest : g.Fits log := fun r' hr' => hf r' (List.mem_cons_of_mem _ hr')
    have hclog : Consistent log := fun r' hr' r'' hr'' =>
      hc r' (List.mem_cons_of_mem _ hr') r'' (List.mem_cons_of_mem _ hr'')
    unfold registerAll
    rw [hnone]
    exact ih (by rw [policy_record]; exact hp) (hrest.record hc hp) hclog

/-- A run from the start is refused exactly if the policy is strict and a name has two
descriptions. -/
theorem registerAll_empty_iff (policy : CollisionPolicy) (log : List Registration) :
    (∃ g, (empty policy).registerAll log = .ok g) ↔ policy ≠ .error ∨ Consistent log := by
  by_cases hp : policy = .error
  · subst hp
    simp only [ne_eq, not_true_eq_false, false_or]
    constructor
    · intro h r hr r' hr' hscope hname
      obtain ⟨g, hg⟩ := h
      have hall := (first?_registerAll rfl hg).2
      have hfirst := hall r hr
      rw [hscope, hname, hall r' hr'] at hfirst
      exact (Option.some.inj hfirst).symm
    · intro hc
      have hfits : (empty .error).Fits log := by
        intro r hr d hd
        cases hd
      exact exists_registerAll_of_consistent (by simp [empty]) hfits hc
  · simp only [ne_eq, hp, not_false_eq_true, true_or, iff_true]
    exact exists_registerAll_of_ne hp log

theorem Consistent.perm {log log' : List Registration} (h : log.Perm log') (hc : Consistent log) :
    Consistent log' := by
  intro r hr r' hr'
  exact hc r (h.mem_iff.2 hr) r' (h.mem_iff.2 hr')

end NameRegistry

/-! ## Expansions that succeed -/

/-- The names are checked for nothing but consistency, and only by the strict policy. -/
theorem Expansion.settle_eq_ok_iff {α : Type} {policy : CollisionPolicy} {x : Expansion α} {a : α} :
    x.settle policy = .ok a ↔
      x.outcome = .ok a ∧ (policy ≠ .error ∨ NameRegistry.Consistent x.log) := by
  rw [← NameRegistry.registerAll_empty_iff]
  unfold settle
  cases (NameRegistry.empty policy).registerAll x.log with
  | error e => simp
  | ok g => simp

/-- In an expansion that succeeds under the strict policy, instances of one name in one scope
have one description. -/
theorem Expansion.description_eq_of_settle {α : Type} {x : Expansion α} {a : α}
    (h : x.settle .error = .ok a) {r r' : Registration} (hr : r ∈ x.log) (hr' : r' ∈ x.log)
    (hscope : r.scope = r'.scope) (hname : r.name = r'.name) :
    r.description = r'.description := by
  have hconsistent := (settle_eq_ok_iff.1 h).2.resolve_left (fun hne => hne rfl)
  exact hconsistent r hr r' hr' hscope hname

end TemplateIdl
