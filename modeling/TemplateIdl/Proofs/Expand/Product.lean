import Mathlib.Algebra.BigOperators.Ring.List
import Mathlib.Algebra.GroupWithZero.Nat
import Mathlib.Data.List.Forall2
import Mathlib.Data.List.Induction
import TemplateIdl.Expand.Product

/-!
# Product — the order in which choices are listed

The choices from several lists are counted like miles on an odometer: each list has a digit, whose
radix is the length of the list, and the last digit moves fastest.

* `MixedRadix.digits` and `MixedRadix.number`, numbers in a mixed radix, and
  `MixedRadix.number_digits` and `MixedRadix.digits_number`, which are inverse to each other;
* `getElem?_product_cons`, the place of a choice from one list more;
* `product_eq_foldl`, the same choices, extended list by list from the left;
* `product_enumerates`, every choice of places is listed once, at the number that it is written as.
-/

namespace TemplateIdl

/-! ## Mixed radix -/

namespace MixedRadix

/-- The digits of `k` in a mixed radix, the most significant one first. A digit counts in units of
what the radices behind it multiply to. -/
def digits : List Nat → Nat → List Nat
  | [], _ => []
  | n :: ns, k => k / ns.prod % n :: digits ns k

/-- The number that is written with the digits `ds`. -/
def number : List Nat → List Nat → Nat
  | _ :: ns, d :: ds => d * ns.prod + number ns ds
  | _, _ => 0

/-- Each digit is less than its radix. -/
abbrev Written (ns ds : List Nat) : Prop := List.Forall₂ (· < ·) ds ns

variable {ns ds : List Nat} {k : Nat}

@[simp] theorem length_digits (ns : List Nat) (k : Nat) : (digits ns k).length = ns.length := by
  induction ns with
  | nil => rfl
  | cons n ns ih => simp [digits, ih]

/-- What all radices together go into does not show in the digits. -/
theorem digits_mul_add (ns : List Nat) (q k : Nat) :
    digits ns (q * ns.prod + k) = digits ns k := by
  induction ns generalizing q with
  | nil => rfl
  | cons n ns ih =>
    have hassoc : q * (n :: ns).prod + k = q * n * ns.prod + k := by
      rw [List.prod_cons, Nat.mul_assoc]
    have hdigit : (q * n * ns.prod + k) / ns.prod % n = k / ns.prod % n := by
      rcases Nat.eq_zero_or_pos ns.prod with hzero | hpos
      · simp [hzero]
      · rw [Nat.mul_comm _ ns.prod, Nat.mul_add_div hpos, Nat.add_comm, Nat.add_mul_mod_self_right]
    rw [hassoc, digits, digits, hdigit, ih (q * n)]

theorem digits_mod (ns : List Nat) (k : Nat) : digits ns (k % ns.prod) = digits ns k := by
  have h := digits_mul_add ns (k / ns.prod) (k % ns.prod)
  rwa [Nat.mul_comm, Nat.div_add_mod, eq_comm] at h

theorem written_digits (h : k < ns.prod) : Written ns (digits ns k) := by
  have hpos : ∀ n ∈ ns, 0 < n := by
    intro n hn
    apply Nat.pos_of_ne_zero
    rintro rfl
    have hzero : ns.prod = 0 := List.prod_eq_zero_iff.2 hn
    omega
  clear h
  induction ns with
  | nil => exact .nil
  | cons n ns ih =>
    exact .cons (Nat.mod_lt _ (hpos n (by simp))) (ih fun m hm => hpos m (by simp [hm]))

theorem number_lt (h : Written ns ds) : number ns ds < ns.prod := by
  induction h with
  | nil => decide
  | @cons d n ds ns hd _ ih =>
    calc d * ns.prod + number ns ds < d * ns.prod + ns.prod := by omega
      _ = (d + 1) * ns.prod := by rw [Nat.add_mul, Nat.one_mul]
      _ ≤ n * ns.prod := Nat.mul_le_mul_right _ hd

/-- The digits of a number write that number. -/
theorem number_digits (h : k < ns.prod) : number ns (digits ns k) = k := by
  induction ns generalizing k with
  | nil =>
    rw [List.prod_nil] at h
    show 0 = k
    omega
  | cons n ns ih =>
    rw [List.prod_cons] at h
    have hpos : 0 < ns.prod := by
      apply Nat.pos_of_ne_zero
      intro hzero
      rw [hzero] at h
      omega
    have hdigit : k / ns.prod % n = k / ns.prod :=
      Nat.mod_eq_of_lt (Nat.div_lt_of_lt_mul (by rwa [Nat.mul_comm]))
    have hrest : number ns (digits ns k) = k % ns.prod := by
      rw [← digits_mod, ih (Nat.mod_lt k hpos)]
    rw [digits, number, hdigit, hrest, Nat.mul_comm, Nat.div_add_mod]

/-- Digits are those of the number that they write. -/
theorem digits_number (h : Written ns ds) : digits ns (number ns ds) = ds := by
  induction h with
  | nil => rfl
  | @cons d n ds ns hd hds ih =>
    have hlt := number_lt hds
    have hdigit : (d * ns.prod + number ns ds) / ns.prod % n = d := by
      rw [Nat.mul_comm, Nat.mul_add_div (by omega), Nat.div_eq_of_lt hlt, Nat.add_zero,
        Nat.mod_eq_of_lt hd]
    rw [number, digits, hdigit, digits_mul_add, ih]

end MixedRadix

open MixedRadix

/-! ## Choices -/

variable {α β : Type}

/-- As many choices as the lengths of the lists multiply to. -/
theorem length_product (sets : List (List α)) :
    (product sets).length = (sets.map List.length).prod := by
  induction sets with
  | nil => rfl
  | cons set sets ih => simp [product, List.length_flatMap, ih]

/-- A choice takes each of its elements from one of the lists. -/
theorem mem_of_mem_product {sets : List (List α)} {choice : List α}
    (h : choice ∈ product sets) : ∀ x ∈ choice, ∃ set ∈ sets, x ∈ set := by
  induction sets generalizing choice with
  | nil =>
    rw [product, List.mem_singleton] at h
    simp [h]
  | cons set sets ih =>
    obtain ⟨x, hx, h⟩ := List.mem_flatMap.1 h
    obtain ⟨rest, hrest, rfl⟩ := List.mem_map.1 h
    intro y hy
    rcases List.mem_cons.1 hy with rfl | hy
    · exact ⟨set, List.mem_cons_self, hx⟩
    · obtain ⟨other, hother, hmem⟩ := ih hrest y hy
      exact ⟨other, List.mem_cons_of_mem _ hother, hmem⟩

/-- A choice has one element for each list. -/
theorem length_of_mem_product {sets : List (List α)} {choice : List α}
    (h : choice ∈ product sets) : choice.length = sets.length := by
  induction sets generalizing choice with
  | nil =>
    rw [product, List.mem_singleton] at h
    rw [h]
    rfl
  | cons set sets ih =>
    rw [product, List.mem_flatMap] at h
    obtain ⟨x, -, h⟩ := h
    obtain ⟨rest, hrest, rfl⟩ := List.mem_map.1 h
    rw [List.length_cons, List.length_cons, ih hrest]

/-! ### From the left -/

/-- A last list extends every choice by each of its elements. -/
theorem product_append_singleton (sets : List (List α)) (set : List α) :
    product (sets ++ [set]) = (product sets).flatMap fun choice => set.map (choice ++ [·]) := by
  induction sets with
  | nil => simp [product, List.map_eq_flatMap]
  | cons first sets ih =>
    rw [List.cons_append, product, ih, product, List.flatMap_assoc]
    congr 1
    funext x
    rw [List.map_flatMap, List.flatMap_map]
    simp only [List.map_map]
    rfl

/-- The choices may be built from the left: each list in turn extends all choices so far. -/
theorem product_eq_foldl (sets : List (List α)) : product sets =
    sets.foldl (fun choices set => choices.flatMap fun choice => set.map (choice ++ [·])) [[]] := by
  induction sets using List.reverseRecOn with
  | nil => rfl
  | append_singleton sets set ih => rw [product_append_singleton, ih, List.foldl_append]; rfl

/-! ### Numbers of choices -/

/-- Lists of one length that are put behind each other are numbered by quotient and remainder. -/
theorem getElem?_flatMap {f : α → List β} {n : Nat} (hf : ∀ x, (f x).length = n) (xs : List α)
    (k : Nat) : (xs.flatMap f)[k]? = xs[k / n]?.bind fun x => (f x)[k % n]? := by
  rcases Nat.eq_zero_or_pos n with rfl | hn
  · have hnil : ∀ x, f x = [] := fun x => List.eq_nil_of_length_eq_zero (hf x)
    simp [hnil]
  · induction xs generalizing k with
    | nil => rfl
    | cons x xs ih =>
      rw [List.flatMap_cons, List.getElem?_append, hf]
      split
      · next hk => simp [Nat.div_eq_of_lt hk, Nat.mod_eq_of_lt hk]
      · next hk =>
        have hdiv : k / n = (k - n) / n + 1 := by
          rw [← Nat.add_div_right _ hn, Nat.sub_add_cancel (by omega)]
        have hmod : k % n = (k - n) % n := (Nat.mod_eq_sub_mod (by omega))
        rw [ih, hdiv, hmod, List.getElem?_cons_succ]

/-- With one list more in front, the quotient tells its element and the remainder the others. -/
theorem getElem?_product_cons (set : List α) (sets : List (List α)) (k : Nat) :
    (product (set :: sets))[k]? = set[k / (sets.map List.length).prod]?.bind fun x =>
      (product sets)[k % (sets.map List.length).prod]?.map (x :: ·) := by
  rw [product, getElem?_flatMap (n := (sets.map List.length).prod)
    (fun x => by rw [List.length_map, length_product])]
  simp

/-- A choice takes from each list the element at the place that its digit tells. -/
theorem map_some_of_getElem?_product {sets : List (List α)} {k : Nat} {choice : List α}
    (h : (product sets)[k]? = some choice) : choice.map some =
      List.zipWith (fun set d => set[d]?) sets (digits (sets.map List.length) k) := by
  induction sets generalizing k choice with
  | nil =>
    rw [product, List.getElem?_singleton] at h
    split at h
    · cases h
      rfl
    · cases h
  | cons set sets ih =>
    rw [getElem?_product_cons, Option.bind_eq_some_iff] at h
    obtain ⟨x, hx, h⟩ := h
    obtain ⟨rest, hrest, rfl⟩ := Option.map_eq_some_iff.1 h
    -- the first digit is a place in the first list, so its radix takes nothing off
    obtain ⟨hlt, -⟩ := List.getElem?_eq_some_iff.1 hx
    rw [List.map_cons, ih hrest, digits_mod, List.map_cons, digits, List.zipWith_cons_cons,
      Nat.mod_eq_of_lt hlt, hx]

/-- **The choices from several lists, in order.** They are as many as the lengths of the lists
multiply to, one if there is no list and none if one of the lists is empty, and have one element
for each list. The choice with the number `k` takes from each list the element at the place that
the digit of `k` tells, where the lengths are the radices and the first list has the most
significant digit. All digits below the lengths are those of exactly one number, so every choice of
places is listed once. -/
theorem product_enumerates (sets : List (List α)) :
    (product sets).length = (sets.map List.length).prod ∧
    (sets = [] → (product sets).length = 1) ∧ ([] ∈ sets → product sets = []) ∧
    (∀ choice ∈ product sets, choice.length = sets.length) ∧
    (∀ (k : Nat) (hk : k < (product sets).length),
      Written (sets.map List.length) (digits (sets.map List.length) k) ∧
      number (sets.map List.length) (digits (sets.map List.length) k) = k ∧
      (product sets)[k].map some =
        List.zipWith (fun set d => set[d]?) sets (digits (sets.map List.length) k)) ∧
    ∀ ds, Written (sets.map List.length) ds →
      ∃! k, k < (product sets).length ∧ digits (sets.map List.length) k = ds := by
  have hlength := length_product sets
  refine ⟨hlength, ?_, ?_, fun choice => length_of_mem_product, ?_, ?_⟩
  · rintro rfl
    rfl
  · intro hmem
    have hzero : (sets.map List.length).prod = 0 :=
      List.prod_eq_zero_iff.2 (List.mem_map.2 ⟨[], hmem, rfl⟩)
    exact List.eq_nil_of_length_eq_zero (hlength.trans hzero)
  · intro k hk
    have hlt : k < (sets.map List.length).prod := hlength ▸ hk
    exact ⟨written_digits hlt, number_digits hlt,
      map_some_of_getElem?_product (List.getElem?_eq_getElem hk)⟩
  · intro ds hds
    refine ⟨number (sets.map List.length) ds, ⟨?_, digits_number hds⟩, ?_⟩
    · rw [hlength]
      exact number_lt hds
    · rintro k ⟨hk, rfl⟩
      exact (number_digits (hlength ▸ hk)).symm

/-- Choices for three template parameters. -/
def grid : List (List TypeExpr) :=
  [[.named "A", .named "B"], [.named "int"], [.named "X", .named "Y", .named "Z"]]

/-- Of the six choices, the one with the number 4 is written 1, 0, 1. -/
theorem grid_enumerates :
    (product grid).length = 6 ∧ digits (grid.map List.length) 4 = [1, 0, 1] ∧
    (∃ hk : 4 < (product grid).length,
      (product grid)[4] = [.named "B", .named "int", .named "Y"] ∧
      (product grid)[4].map some =
        List.zipWith (fun set d => set[d]?) grid (digits (grid.map List.length) 4)) ∧
    Written (grid.map List.length) [1, 0, 1] ∧
    (∃! k, k < (product grid).length ∧ digits (grid.map List.length) k = [1, 0, 1]) ∧
    [] ∈ [] :: grid ∧ product ([] :: grid) = [] := by
  have hwritten : Written (grid.map List.length) [1, 0, 1] := by
    show Written [2, 1, 3] [1, 0, 1]
    simp
  obtain ⟨-, -, -, -, hchoice, hunique⟩ := product_enumerates grid
  obtain ⟨-, -, hempty, -⟩ := product_enumerates ([] :: grid)
  exact ⟨rfl, rfl, ⟨by decide, rfl, (hchoice 4 (by decide)).2.2⟩, hwritten, hunique _ hwritten,
    List.mem_cons_self, hempty List.mem_cons_self⟩

end TemplateIdl
