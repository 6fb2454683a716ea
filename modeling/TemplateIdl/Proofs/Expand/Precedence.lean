import TemplateIdl.Proofs.Expand.Registry
import Mathlib.Data.Finset.Card

/-!
# Precedence — the first registration of a name decides

A registry is called many times, also after it has refused something.

* `Registration.key`, what two registrations of one name have in common;
* `NameRegistry.registerEach`, the answers to calls one after the other, and the names after them;
* `NameRegistry.registerAll_eq`, an expansion's log is refused with the first answer that refuses;
* `NameRegistry.registerAll_accepted`, refused calls can be left out;
* `NameRegistry.Follows`, the names that are there after some calls, with the step
  `NameRegistry.Follows.record` and the run `NameRegistry.follows_registerEach`;
* `NameRegistry.registerEach_empty_precedence`, a call is refused exactly because of the earliest
  call with its name, whatever was refused in between.
-/

namespace TemplateIdl

/-- What names are told apart by: the scope as a path, and the name in it. -/
def Registration.key (r : Registration) : List String × String := (r.scope, r.name)

namespace NameRegistry

variable {g : NameRegistry}

/-! ## Calls -/

/-- One call: why it is refused, if it is, and the names after it. -/
def register (g : NameRegistry) (r : Registration) : Option ExpansionError × NameRegistry :=
  (g.conflict? r, g.record r)

/-- Calls one after the other, whatever the answers are: all answers, and the names after the last
call. -/
def registerEach (g : NameRegistry) :
    List Registration → List (Option ExpansionError) × NameRegistry
  | [] => ([], g)
  | r :: calls =>
    let rest := (g.register r).2.registerEach calls
    ((g.register r).1 :: rest.1, rest.2)

@[simp] theorem registerEach_nil (g : NameRegistry) : g.registerEach [] = ([], g) := rfl

@[simp] theorem registerEach_cons_fst (g : NameRegistry) (r : Registration)
    (calls : List Registration) :
    (g.registerEach (r :: calls)).1 = g.conflict? r :: ((g.record r).registerEach calls).1 := rfl

@[simp] theorem registerEach_cons_snd (g : NameRegistry) (r : Registration)
    (calls : List Registration) :
    (g.registerEach (r :: calls)).2 = ((g.record r).registerEach calls).2 := rfl

theorem length_registerEach (g : NameRegistry) (calls : List Registration) :
    (g.registerEach calls).1.length = calls.length := by
  induction calls generalizing g with
  | nil => rfl
  | cons r calls ih => rw [registerEach_cons_fst, List.length_cons, ih, List.length_cons]

theorem policy_registerEach (g : NameRegistry) (calls : List Registration) :
    (g.registerEach calls).2.policy = g.policy := by
  induction calls generalizing g with
  | nil => rfl
  | cons r calls ih => rw [registerEach_cons_snd, ih, policy_record]

/-- A call is answered from the names after the calls before it. -/
theorem getElem?_registerEach (g : NameRegistry) (calls : List Registration) (i : Nat) :
    (g.registerEach calls).1[i]? =
      calls[i]?.map (g.registerEach (calls.take i)).2.conflict? := by
  induction calls generalizing g i with
  | nil => rfl
  | cons r calls ih =>
    cases i with
    | zero => rfl
    | succ i =>
      rw [registerEach_cons_fst, List.getElem?_cons_succ, ih, List.getElem?_cons_succ,
        List.take_succ_cons, registerEach_cons_snd]

/-- A log is refused with the first answer that refuses, and otherwise all of it is kept. -/
theorem registerAll_eq (g : NameRegistry) (log : List Registration) :
    g.registerAll log =
      match (g.registerEach log).1.findSome? id with
      | some e => .error e
      | none => .ok (g.registerEach log).2 := by
  induction log generalizing g with
  | nil => rfl
  | cons r log ih =>
    unfold registerAll
    rw [registerEach_cons_fst, registerEach_cons_snd, List.findSome?_cons]
    cases g.conflict? r with
    | some e => rfl
    | none => exact ih (g.record r)

/-- The calls that are not refused. -/
def accepted (g : NameRegistry) : List Registration → List Registration
  | [] => []
  | r :: calls =>
    if (g.conflict? r).isSome then (g.record r).accepted calls
    else r :: (g.record r).accepted calls

/-- **Refusals leave no trace.** Without the refused calls nothing is refused, and the same names
are there after the last call. -/
theorem registerAll_accepted (g : NameRegistry) (calls : List Registration) :
    g.registerAll (g.accepted calls) = .ok (g.registerEach calls).2 := by
  induction calls generalizing g with
  | nil => rfl
  | cons r calls ih =>
    rw [accepted, registerEach_cons_snd]
    cases hc : g.conflict? r with
    | some e =>
      -- the next call finds the registry as this one has found it
      have hsame := record_of_conflict? hc
      rw [if_pos Option.isSome_some, hsame]
      exact ih g
    | none =>
      rw [if_neg (by simp), registerAll, hc]
      exact ih (g.record r)

/-! ## The names after some calls -/

theorem first?_isSome_iff (g : NameRegistry) (scope : List String) (name : String) :
    (g.first? scope name).isSome ↔ (scope, name) ∈ g.names.map Prod.fst := by
  simp [first?]

/-- Under a policy that keeps names, the names that are there after some calls: each once, with
the description of the earliest call that had it. -/
structure Follows (g : NameRegistry) (past : List Registration) : Prop where
  kept : g.policy ≠ .ignore
  nodup : (g.names.map Prod.fst).Nodup
  first : ∀ scope name, g.first? scope name =
    (past.find? fun r => r.key == (scope, name)).map Registration.description

theorem follows_empty {policy : CollisionPolicy} (hp : policy ≠ .ignore) :
    (empty policy).Follows [] where
  kept := hp
  nodup := List.nodup_nil
  first _ _ := rfl

/-- A name that is new comes after the others. -/
theorem nodup_record (h : (g.names.map Prod.fst).Nodup) (r : Registration) :
    ((g.record r).names.map Prod.fst).Nodup := by
  unfold record
  split
  · exact h
  · next hnew =>
    have hfresh : (r.scope, r.name) ∉ g.names.map Prod.fst := by
      rw [← first?_isSome_iff]
      exact fun hsome => hnew (.inr hsome)
    rw [List.map_append, List.map_singleton, ← List.concat_eq_append]
    exact h.concat hfresh

theorem Follows.record {past : List Registration} (h : g.Follows past) (r : Registration) :
    (g.record r).Follows (past ++ [r]) where
  kept := by
    rw [policy_record]
    exact h.kept
  nodup := nodup_record h.nodup r
  first scope name := by
    -- the earliest among the calls so far, else the call that has just been made
    rw [first?_record h.kept, h.first, List.find?_append, Option.map_or]
    congr 1
    by_cases hkey : r.key = (scope, name)
    · simp [← hkey, Registration.key]
    · have hpair : (r.scope, r.name) ≠ (scope, name) := hkey
      simp [hkey, hpair]

theorem Follows.registerEach {past : List Registration} (h : g.Follows past)
    (calls : List Registration) : (g.registerEach calls).2.Follows (past ++ calls) := by
  induction calls generalizing g past with
  | nil =>
    rw [List.append_nil]
    exact h
  | cons r calls ih =>
    rw [registerEach_cons_snd, List.append_cons]
    exact ih (h.record r)

theorem follows_registerEach {policy : CollisionPolicy} (hp : policy ≠ .ignore)
    (calls : List Registration) : ((empty policy).registerEach calls).2.Follows calls :=
  (follows_empty hp).registerEach calls

/-- There are as many names as different keys among the calls. -/
theorem Follows.size_eq {past : List Registration} (h : g.Follows past) :
    g.size = (past.map Registration.key).toFinset.card := by
  have hkeys : (g.names.map Prod.fst).toFinset = (past.map Registration.key).toFinset := by
    ext ⟨scope, name⟩
    rw [List.mem_toFinset, List.mem_toFinset, ← first?_isSome_iff, h.first]
    simp
  calc g.size
      = (g.names.map Prod.fst).length := by rw [List.length_map]; rfl
    _ = (g.names.map Prod.fst).toFinset.card := (List.toFinset_card_of_nodup h.nodup).symm
    _ = (past.map Registration.key).toFinset.card := by rw [hkeys]

/-- Nothing is kept under the policy that ignores collisions. -/
theorem registerEach_empty_ignore (calls : List Registration) :
    ((empty .ignore).registerEach calls).2 = empty .ignore := by
  induction calls with
  | nil => rfl
  | cons r calls ih => exact ih

/-! ## Who was first -/

theorem conflict?_eq_some_iff {r : Registration} {e : ExpansionError} :
    g.conflict? r = some e ↔ g.policy = .error ∧
      ∃ first, g.first? r.scope r.name = some first ∧ first ≠ r.description ∧
        e = ⟨.nameCollision r.name first r.description, r.span⟩ := by
  constructor
  · intro h
    have hp : g.policy = .error := by
      apply Decidable.byContradiction
      intro hne
      rw [conflict?_eq_none_of_ne hne] at h
      cases h
    exact ⟨hp, conflict?_eq_some h⟩
  · rintro ⟨hp, first, hfirst, hne, rfl⟩
    simp only [conflict?, hp, hfirst, if_neg hne]

/-- **The first registration of a name decides.** Whatever is called in whatever order on a
registry that is empty at first, every call is answered; call `i` is refused exactly if the policy
is strict and the earliest of the calls before it with its scope and name has another description,
and the refusal names the two descriptions in this order at the place of call `i`. After any number
of calls, the refused ones included, the names are the different pairs of scope and name among
them, or none if collisions are ignored. -/
theorem registerEach_empty_precedence (policy : CollisionPolicy) (calls : List Registration) :
    ((empty policy).registerEach calls).1.length = calls.length ∧
    (∀ i e, ((empty policy).registerEach calls).1[i]? = some (some e) ↔
      policy = .error ∧ ∃ r first, calls[i]? = some r ∧
        (calls.take i).find? (fun r' => r'.key == r.key) = some first ∧
        first.description ≠ r.description ∧
        e = ⟨.nameCollision r.name first.description r.description, r.span⟩) ∧
    ∀ i, ((empty policy).registerEach (calls.take i)).2.size =
      if policy = .ignore then 0 else ((calls.take i).map Registration.key).toFinset.card := by
  refine ⟨length_registerEach _ _, ?_, ?_⟩
  · intro i e
    rw [getElem?_registerEach, Option.map_eq_some_iff]
    simp only [conflict?_eq_some_iff, policy_registerEach]
    constructor
    · rintro ⟨r, hr, hp, d, hd, hne, rfl⟩
      have hkept : policy ≠ .ignore := fun hi => absurd (hp.symm.trans hi) (by decide)
      rw [(follows_registerEach hkept _).first, Option.map_eq_some_iff] at hd
      obtain ⟨first, hfirst, rfl⟩ := hd
      exact ⟨hp, r, first, hr, hfirst, hne, rfl⟩
    · rintro ⟨hp, r, first, hr, hfirst, hne, rfl⟩
      have hkept : policy ≠ .ignore := fun hi => absurd (hp.symm.trans hi) (by decide)
      refine ⟨r, hr, hp, first.description, ?_, hne, rfl⟩
      rw [(follows_registerEach hkept _).first]
      exact congrArg _ hfirst
  · intro i
    split
    · next hp =>
      rw [hp, registerEach_empty_ignore]
      rfl
    · next hp => exact (follows_registerEach hp _).size_eq

end NameRegistry

end TemplateIdl
