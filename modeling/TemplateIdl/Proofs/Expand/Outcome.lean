import Mathlib.Data.List.Forall2
import TemplateIdl.Expand.Expansion

/-!
# Outcomes and logs — expansions taken apart

* `Expansion.outcome_bind_of_ok`, `Expansion.outcome_bind_ok` and `Expansion.outcome_forEach_ok`,
  an expansion that succeeds consists of expansions that succeed;
* `Expansion.outcome_forEach_map`, an expansion that only differs in what its parts become;
* `Expansion.mem_log_bind` and `Expansion.forEach_log`, where the names in its log come from;
* `ErrorsIn`, all errors are of one sort, and `Expansion.errorsIn_bind` and
  `Expansion.errorsIn_forEach`, so they are in an expansion that consists of such expansions.
-/

namespace TemplateIdl

theorem except_map_ok {ε α β : Type} {x : Except ε α} {f : α → β} {b : β}
    (h : x.map f = .ok b) : ∃ a, x = .ok a ∧ f a = b := by
  cases x with
  | error e => cases h
  | ok a => cases h; exact ⟨a, rfl, rfl⟩

theorem except_bind_ok {ε α β : Type} {x : Except ε α} {f : α → Except ε β} {b : β}
    (h : x.bind f = .ok b) : ∃ a, x = .ok a ∧ f a = .ok b := by
  cases x with
  | error e => cases h
  | ok a => exact ⟨a, rfl, h⟩

theorem except_ok_of_toOption {ε α : Type} {x : Except ε α} {a : α}
    (h : x.toOption = some a) : x = .ok a := by
  cases x with
  | error e => cases h
  | ok b => cases h; rfl

theorem except_map_id {ε α : Type} (x : Except ε α) : x.map id = x := by
  cases x <;> rfl

theorem except_map_bind {ε α β γ : Type} (x : Except ε α) (f : α → Except ε β) (g : β → γ) :
    (x.bind f).map g = x.bind fun a => (f a).map g := by
  cases x <;> rfl

theorem except_bind_map {ε α β γ : Type} (x : Except ε α) (f : α → β) (g : β → Except ε γ) :
    (x.map f).bind g = x.bind fun a => g (f a) := by
  cases x <;> rfl

namespace Expansion

variable {α β γ : Type}

/-! ## Outcomes -/

@[simp] theorem outcome_lift (x : Except ExpansionError α) : (lift x).outcome = x := rfl

@[simp] theorem outcome_register (r : Registration) : (register r).outcome = .ok () := rfl

theorem outcome_bind_of_ok {x : Expansion α} {f : α → Expansion β} {a : α}
    (h : x.outcome = .ok a) : (x >>= f).outcome = (f a).outcome := by
  rw [outcome_bind, h, Except.bind]

theorem outcome_bind_ok {x : Expansion α} {f : α → Expansion β} {b : β}
    (h : (x >>= f).outcome = .ok b) : ∃ a, x.outcome = .ok a ∧ (f a).outcome = .ok b := by
  rw [outcome_bind] at h
  cases hx : x.outcome with
  | error e => rw [hx] at h; cases h
  | ok a => rw [hx] at h; exact ⟨a, rfl, h⟩

theorem outcome_pure_ok {a b : α} (h : (pure a : Expansion α).outcome = .ok b) : a = b := by
  cases h; rfl

/-- A result in another form. -/
theorem outcome_wrap_ok {x : Expansion α} {wrap : α → β} {b : β}
    (h : (x >>= fun a => pure (wrap a)).outcome = .ok b) : ∃ a, x.outcome = .ok a ∧ wrap a = b := by
  obtain ⟨a, ha, h⟩ := outcome_bind_ok h
  exact ⟨a, ha, outcome_pure_ok h⟩

/-- Several things are expanded one by one. -/
theorem outcome_forEach_ok {f : α → Expansion β} {as : List α} {bs : List β}
    (h : (forEach f as).outcome = .ok bs) :
    List.Forall₂ (fun a b => (f a).outcome = .ok b) as bs := by
  induction as generalizing bs with
  | nil => cases h; exact .nil
  | cons a as ih =>
    obtain ⟨b, hb, h⟩ := outcome_bind_ok h
    obtain ⟨bs', hbs, rfl⟩ := outcome_wrap_ok h
    exact .cons hb (ih hbs)

/-- Where each thing becomes something else, so do all of them. -/
theorem outcome_forEach_map {f : α → Expansion β} {g : α → Expansion γ} {k : β → γ}
    (h : ∀ a, (g a).outcome = (f a).outcome.map k) (as : List α) :
    (forEach g as).outcome = (forEach f as).outcome.map (List.map k) := by
  induction as with
  | nil => rfl
  | cons a as ih =>
    simp only [forEach, outcome_bind, h, ih, except_bind_map, except_map_bind]
    rfl

/-- The names registered on the way do not show in the result. -/
theorem outcome_of_settle {policy : CollisionPolicy} {x : Expansion α} {a : α}
    (h : x.settle policy = .ok a) : x.outcome = .ok a := by
  unfold settle at h
  split at h
  · cases h
  · exact h

/-! ## Logs -/

/-- The log of two expansions is that of the first one with that of the second one behind it. -/
theorem log_bind_of_ok {x : Expansion α} {f : α → Expansion β} {a : α}
    (h : x.outcome = .ok a) : (x >>= f).log = x.log ++ (f a).log := by
  obtain ⟨log, outcome⟩ := x
  cases h
  rfl

theorem mem_log_bind {x : Expansion α} {f : α → Expansion β} {a : α} (h : x.outcome = .ok a)
    {r : Registration} : r ∈ (x >>= f).log ↔ r ∈ x.log ∨ r ∈ (f a).log := by
  rw [log_bind_of_ok h, List.mem_append]

/-- Where several things are expanded, each result comes from one of them, whose names are in the
log. -/
theorem forEach_log {f : α → Expansion β} {as : List α} {bs : List β}
    (h : (forEach f as).outcome = .ok bs) {b : β} (hb : b ∈ bs) :
    ∃ a ∈ as, (f a).outcome = .ok b ∧ ∀ r ∈ (f a).log, r ∈ (forEach f as).log := by
  induction as generalizing bs with
  | nil =>
    cases outcome_pure_ok h
    exact absurd hb List.not_mem_nil
  | cons a as ih =>
    obtain ⟨b', hb', h⟩ := outcome_bind_ok h
    obtain ⟨bs', hbs', rfl⟩ := outcome_wrap_ok h
    rcases List.mem_cons.1 hb with rfl | hb
    · refine ⟨a, by simp, hb', ?_⟩
      intro r hr
      exact (mem_log_bind hb').2 (.inl hr)
    · obtain ⟨a', ha', hout, hlog⟩ := ih hbs' hb
      refine ⟨a', by simp [ha'], hout, ?_⟩
      intro r hr
      exact (mem_log_bind hb').2 (.inr ((mem_log_bind hbs').2 (.inl (hlog r hr))))

end Expansion

/-! ## Errors -/

/-- All errors satisfy `E`. -/
def ErrorsIn {α : Type} (E : ExpansionError → Prop) (x : Except ExpansionError α) : Prop :=
  ∀ e, x = .error e → E e

section Errors

variable {α β : Type} {E : ExpansionError → Prop}

theorem ErrorsIn.ok (a : α) : ErrorsIn E (.ok a) := nofun

theorem ErrorsIn.of_exists {x : Except ExpansionError α} (h : ∃ a, x = .ok a) : ErrorsIn E x := by
  obtain ⟨a, rfl⟩ := h
  exact .ok a

theorem ErrorsIn.bind {x : Except ExpansionError α} {f : α → Except ExpansionError β}
    (hx : ErrorsIn E x) (hf : ∀ a, ErrorsIn E (f a)) : ErrorsIn E (x.bind f) := by
  intro e he
  cases x with
  | error e' =>
    cases he
    exact hx _ rfl
  | ok a => exact hf a e he

theorem Expansion.errorsIn_bind {x : Expansion α} {f : α → Expansion β}
    (hx : ErrorsIn E x.outcome) (hf : ∀ a, ErrorsIn E (f a).outcome) :
    ErrorsIn E (x >>= f).outcome := by
  rw [outcome_bind]
  exact hx.bind hf

theorem Expansion.errorsIn_forEach {f : α → Expansion β} {as : List α}
    (h : ∀ a ∈ as, ErrorsIn E (f a).outcome) : ErrorsIn E (forEach f as).outcome := by
  induction as with
  | nil => exact .ok []
  | cons a as ih =>
    rw [List.forall_mem_cons] at h
    exact errorsIn_bind h.1 fun b => errorsIn_bind (ih h.2) fun bs => .ok _

end Errors

end TemplateIdl
