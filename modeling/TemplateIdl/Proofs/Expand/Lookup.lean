import Mathlib.Data.Nat.Find
import Mathlib.Order.Bounds.Basic
import TemplateIdl.Expand.Index

/-!
# Lookup — the index of targets against a search of the file

The index is filled once, in a walk over all namespaces, and asked for every typedef. A reader
would instead look through the file for each typedef.

* `Declaration.targets`, what typedefs can name in a declaration, in the order of the file and with
  full paths, and `targetsAt`, the targets of one path;
* `Answer`, what a reader finds who starts in a scope and goes outwards;
* `TypedefIndex.Indexes` and `TypedefIndex.indexes_ofContent`, the index holds what the walk finds;
* `TypedefIndex.answer_resolve`, what the index finds is an answer, and
  `TypedefIndex.resolve_eq_iff_answer`, the index answers as the reader does.
-/

namespace TemplateIdl

/-! ## The search -/

namespace Declaration

mutual

/-- What typedefs can name in a declaration of `scope`, with full paths. A forward declaration
can be written with namespaces of its own. -/
def targets (scope : List String) : Declaration → List (List String × Target)
  | .space name content _ => contentTargets (scope ++ [name]) content
  | .cls c => [(scope ++ [c.name], .cls c)]
  | .function f => [(scope ++ [f.name], .function f)]
  | .forward f => [(scope ++ f.typename.namespaces ++ [f.name], .forward f)]
  | .inclusion _ | .enumeration _ | .var _ | .typedef _ => []

/-- What typedefs can name in the declarations of `scope`, in their order. -/
def contentTargets (scope : List String) : List Declaration → List (List String × Target)
  | [] => []
  | d :: ds => targets scope d ++ contentTargets scope ds

end

theorem contentTargets_eq_flatMap (scope : List String) (ds : Content) :
    contentTargets scope ds = ds.flatMap (targets scope) := by
  induction ds with
  | nil => rfl
  | cons d ds ih => simp [contentTargets, ih]

end Declaration

section Search

variable (entries : List (List String × Target)) (scope path : List String)

/-- The targets of one full path. -/
def targetsAt (full : List String) : List Target :=
  (entries.filter fun e => e.1 == full).map Prod.snd

/-- Seen from `scope`, the path names something in the first `depth` namespaces of the scope. -/
def FoundAt (depth : Nat) : Prop := ∃ e ∈ entries, e.1 = scope.take depth ++ path

/-- The targets that a path names as seen from `scope`: those in the innermost namespace where it
names something, and of them the classes alone if there is a class. -/
inductive Answer : List Target → Prop
  | nothing (h : ∀ depth ≤ scope.length, ¬ FoundAt entries scope path depth) : Answer []
  | classes {depth : Nat}
      (h : IsGreatest {n | n ≤ scope.length ∧ FoundAt entries scope path n} depth)
      (hc : ∃ t ∈ targetsAt entries (scope.take depth ++ path), t.isClass = true) :
      Answer ((targetsAt entries (scope.take depth ++ path)).filter Target.isClass)
  | others {depth : Nat}
      (h : IsGreatest {n | n ≤ scope.length ∧ FoundAt entries scope path n} depth)
      (hc : ∀ t ∈ targetsAt entries (scope.take depth ++ path), t.isClass = false) :
      Answer (targetsAt entries (scope.take depth ++ path))

end Search

section Targets

variable {entries : List (List String × Target)}

theorem targetsAt_append (entries entries' : List (List String × Target)) (full : List String) :
    targetsAt (entries ++ entries') full = targetsAt entries full ++ targetsAt entries' full := by
  simp [targetsAt]

theorem targetsAt_singleton_self (full : List String) (t : Target) :
    targetsAt [(full, t)] full = [t] := by
  simp [targetsAt]

theorem targetsAt_singleton_of_ne {full other : List String} (h : other ≠ full) (t : Target) :
    targetsAt [(full, t)] other = [] := by
  simp [targetsAt, h.symm]

theorem targetsAt_eq_nil {full : List String} :
    targetsAt entries full = [] ↔ ∀ e ∈ entries, e.1 ≠ full := by
  simp [targetsAt]

theorem foundAt_iff {scope path : List String} {depth : Nat} :
    FoundAt entries scope path depth ↔ targetsAt entries (scope.take depth ++ path) ≠ [] := by
  simp [FoundAt, targetsAt_eq_nil]

end Targets

/-! ## What the index holds -/

namespace TypedefIndex

/-- The index holds the targets `entries`, those of one path in their order. -/
def Indexes (x : TypedefIndex) (entries : List (List String × Target)) : Prop :=
  ∀ full, x.targets? full =
    if targetsAt entries full = [] then none else some (targetsAt entries full)

theorem targets?_insert (x : TypedefIndex) (full : List String) (t : Target)
    (other : List String) :
    (x.insert full t).targets? other =
      if other = full then some ((x.targets? full).getD [] ++ [t]) else x.targets? other := by
  obtain ⟨es⟩ := x
  simp only [insert, targets?]
  induction es with
  | nil =>
    by_cases ho : other = full
    · simp [insertEntry, ho]
    · simp [insertEntry, ho, Ne.symm ho]
  | cons e es ih =>
    unfold insertEntry
    by_cases he : e.1 = full
    · by_cases ho : other = full
      · simp [he, ho]
      · simp [he, ho, Ne.symm ho]
    · rw [if_neg he]
      by_cases ho : e.1 = other
      · have hne : other ≠ full := fun h => he (ho.trans h)
        simp [ho, hne]
      · simpa [ho, he] using ih

theorem Indexes.insert {x : TypedefIndex} {entries : List (List String × Target)}
    (h : x.Indexes entries) (full : List String) (t : Target) :
    (x.insert full t).Indexes (entries ++ [(full, t)]) := by
  intro other
  rw [targets?_insert, h full, h other, targetsAt_append]
  by_cases ho : other = full
  · subst ho
    rw [targetsAt_singleton_self]
    by_cases hnil : targetsAt entries other = []
    · simp [hnil]
    · simp [hnil]
  · rw [if_neg ho, targetsAt_singleton_of_ne ho, List.append_nil]

mutual

theorem Indexes.insertDeclaration {x : TypedefIndex} {entries : List (List String × Target)}
    (h : x.Indexes entries) (scope : List String) (d : Declaration) :
    (x.insertDeclaration scope d).Indexes (entries ++ d.targets scope) := by
  cases d with
  | space name content span => exact h.insertContent (scope ++ [name]) content
  | cls c =>
    have hpath : Target.path scope (.cls c) = scope ++ [c.name] := by
      simp [Target.path, Target.qualifier, Target.name]
    rw [TypedefIndex.insertDeclaration, hpath]
    exact h.insert (scope ++ [c.name]) (.cls c)
  | function f =>
    have hpath : Target.path scope (.function f) = scope ++ [f.name] := by
      simp [Target.path, Target.qualifier, Target.name]
    rw [TypedefIndex.insertDeclaration, hpath]
    exact h.insert (scope ++ [f.name]) (.function f)
  | forward f => exact h.insert (Target.path scope (.forward f)) (.forward f)
  | inclusion d => simpa [TypedefIndex.insertDeclaration, Declaration.targets] using h
  | enumeration d => simpa [TypedefIndex.insertDeclaration, Declaration.targets] using h
  | var d => simpa [TypedefIndex.insertDeclaration, Declaration.targets] using h
  | typedef d => simpa [TypedefIndex.insertDeclaration, Declaration.targets] using h

theorem Indexes.insertContent {x : TypedefIndex} {entries : List (List String × Target)}
    (h : x.Indexes entries) (scope : List String) (ds : Content) :
    (x.insertContent scope ds).Indexes (entries ++ Declaration.contentTargets scope ds) := by
  cases ds with
  | nil => simpa [TypedefIndex.insertContent, Declaration.contentTargets] using h
  | cons d ds =>
    have hrest := (h.insertDeclaration scope d).insertContent scope ds
    rw [List.append_assoc] at hrest
    exact hrest

end

/-- The index of a file holds what a walk over the file finds. -/
theorem indexes_ofContent (content : Content) :
    (ofContent content).Indexes (Declaration.contentTargets [] content) := by
  have hempty : empty.Indexes [] := fun _ => rfl
  exact hempty.insertContent [] content

/-! ## Asking the index -/

variable {x : TypedefIndex} {entries : List (List String × Target)}

theorem Indexes.resolveIn_cons (h : x.Indexes entries) (path scope : List String)
    (scopes : List (List String)) :
    x.resolveIn path (scope :: scopes) =
      if targetsAt entries (scope ++ path) = [] then x.resolveIn path scopes
      else visible (targetsAt entries (scope ++ path)) := by
  rw [resolveIn, h]
  by_cases hnil : targetsAt entries (scope ++ path) = []
  · rw [if_pos hnil, if_pos hnil]
  · rw [if_neg hnil, if_neg hnil]

/-- The first `n` scopes around `scope`, from the inside to the outside. -/
theorem outward_succ (scope : List String) (n : Nat) :
    ((List.range (n + 1)).reverse.map fun k => scope.take k) =
      scope.take n :: (List.range n).reverse.map fun k => scope.take k := by
  rw [List.range_succ, List.reverse_append]
  rfl

/-- Where the path is not found at any depth, there is no target. -/
theorem Indexes.resolveIn_nothing (h : x.Indexes entries) {scope path : List String} {n : Nat}
    (hn : ∀ k < n, ¬ FoundAt entries scope path k) :
    x.resolveIn path ((List.range n).reverse.map fun k => scope.take k) = [] := by
  induction n with
  | zero => rfl
  | succ n ih =>
    have hmiss := hn n (by omega)
    rw [foundAt_iff, not_not] at hmiss
    rw [outward_succ, h.resolveIn_cons, if_pos hmiss]
    apply ih
    intro k hk
    exact hn k (by omega)

/-- The greatest depth at which the path is found decides. -/
theorem Indexes.resolveIn_found (h : x.Indexes entries) {scope path : List String} {n depth : Nat}
    (hd : depth < n) (hfound : FoundAt entries scope path depth)
    (hmiss : ∀ k < n, depth < k → ¬ FoundAt entries scope path k) :
    x.resolveIn path ((List.range n).reverse.map fun k => scope.take k) =
      visible (targetsAt entries (scope.take depth ++ path)) := by
  induction n with
  | zero => omega
  | succ n ih =>
    rw [outward_succ, h.resolveIn_cons]
    by_cases hn : depth = n
    · subst hn
      rw [if_neg (foundAt_iff.1 hfound)]
    · have hskip := hmiss n (by omega) (by omega)
      rw [foundAt_iff, not_not] at hskip
      rw [if_pos hskip]
      apply ih (by omega)
      intro k hk
      exact hmiss k (by omega)

theorem Indexes.resolve_of_isGreatest (h : x.Indexes entries) {scope path : List String}
    {depth : Nat}
    (hd : IsGreatest {n | n ≤ scope.length ∧ FoundAt entries scope path n} depth) :
    x.resolve scope path = visible (targetsAt entries (scope.take depth ++ path)) := by
  obtain ⟨⟨hle, hfound⟩, hgreatest⟩ := hd
  refine h.resolveIn_found (by omega) hfound ?_
  intro k hk hlt hk'
  have hbound := hgreatest ⟨by omega, hk'⟩
  omega

/-- The index gives the answer of a search. -/
theorem Indexes.resolve_of_answer (h : x.Indexes entries) {scope path : List String}
    {found : List Target} (ha : Answer entries scope path found) :
    x.resolve scope path = found := by
  cases ha with
  | nothing hmiss =>
    apply h.resolveIn_nothing
    intro k hk
    exact hmiss k (by omega)
  | classes hd hc =>
    rw [h.resolve_of_isGreatest hd, visible, if_pos (List.any_eq_true.2 hc)]
  | others hd hc =>
    rw [h.resolve_of_isGreatest hd, visible, if_neg]
    simpa using hc

end TypedefIndex

/-- Every search has an answer. -/
theorem exists_answer (entries : List (List String × Target)) (scope path : List String) :
    ∃ found, Answer entries scope path found := by
  classical
  by_cases hsome : ∃ n ≤ scope.length, FoundAt entries scope path n
  · obtain ⟨n, hn, hfound⟩ := hsome
    have hd : IsGreatest {n | n ≤ scope.length ∧ FoundAt entries scope path n}
        (Nat.findGreatest (FoundAt entries scope path) scope.length) := by
      refine ⟨⟨Nat.findGreatest_le _, Nat.findGreatest_spec hn hfound⟩, ?_⟩
      intro k hk
      exact Nat.le_findGreatest hk.1 hk.2
    by_cases hc : ∃ t ∈ targetsAt entries (scope.take
        (Nat.findGreatest (FoundAt entries scope path) scope.length) ++ path), t.isClass = true
    · exact ⟨_, .classes hd hc⟩
    · refine ⟨_, .others hd ?_⟩
      simpa using hc
  · refine ⟨_, .nothing ?_⟩
    intro n hn hfound
    exact hsome ⟨n, hn, hfound⟩

/-- The index of a file answers every question as a search through the file does. -/
theorem TypedefIndex.answer_resolve (content : Content) (scope path : List String) :
    Answer (Declaration.contentTargets [] content) scope path
      ((ofContent content).resolve scope path) := by
  obtain ⟨found, ha⟩ := exists_answer (Declaration.contentTargets [] content) scope path
  rw [(indexes_ofContent content).resolve_of_answer ha]
  exact ha

/-- What the index of a file gives for a path in a scope is the answer of a search through the
file. -/
theorem TypedefIndex.resolve_eq_iff_answer (content : Content) (scope path : List String)
    (found : List Target) :
    (ofContent content).resolve scope path = found ↔
      Answer (Declaration.contentTargets [] content) scope path found := by
  constructor
  · intro h
    rw [← h]
    exact answer_resolve content scope path
  · intro ha
    exact (indexes_ofContent content).resolve_of_answer ha

end TemplateIdl
