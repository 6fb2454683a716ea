import Mathlib.Data.List.Find
import TemplateIdl.Proofs.Expand.Closed

/-!
# Renaming — other names for parameters

A name is compared with the parameters where it stands as a segment of a path, or by itself. If it
is renamed there and the parameter is renamed in the same way, it is found again, and the parameter
that is found first in a path is the same one.

* `TypeExpr.mapNames` and `Substitution.mapNames`, a function applied to names that are compared;
* `Substitution.renameParam`, the function that renames parameters only;
* `Substitution.scoped?_mapNames_of_one` and `Substitution.get?_mapNames`, what is found after that;
* `Substitution.subst?_mapNames`, the names of parameters do not matter.
-/

namespace TemplateIdl

namespace TypeExpr

mutual

/-- The type use in which `f` is applied to the names that may stand for something, at all depths:
to the segments of paths, and to names that stand by themselves. -/
def mapNames (f : String → String) : TypeExpr → TypeExpr
  | mk ns name args isConst sign isBasic =>
    mk (ns.map f) (if ns.isEmpty && args.isEmpty then f name else name) (mapNamesList f args)
      isConst sign isBasic

/-- The type uses with `f` applied to their names. -/
def mapNamesList (f : String → String) : List TypeExpr → List TypeExpr
  | [] => []
  | t :: ts => mapNames f t :: mapNamesList f ts

end

theorem mapNamesList_eq_map (f : String → String) (ts : List TypeExpr) :
    mapNamesList f ts = ts.map (mapNames f) := by
  induction ts with
  | nil => rfl
  | cons t ts ih => rw [mapNamesList, ih, List.map_cons]

/-- A name is contained in a type use if it stands in one of the parts. -/
theorem contains_iff_exists_part {s : String} {t : TypeExpr} :
    t.Contains s ↔ ∃ u ∈ t.parts, u.name = s ∨ s ∈ u.namespaces := by
  constructor
  · intro h
    induction h with
    | name => exact ⟨_, self_mem_parts _, .inl rfl⟩
    | space h => exact ⟨_, self_mem_parts _, .inr h⟩
    | arg h _ ih =>
      obtain ⟨u, hu, hs⟩ := ih
      exact ⟨u, mem_parts.2 (.inr ⟨_, h, hu⟩), hs⟩
  · intro h
    obtain ⟨u, hu, hs⟩ := h
    induction t using TypeExpr.induct with
    | mk ns name args c i b ih =>
      rcases mem_parts.1 hu with rfl | ⟨a, ha, hu⟩
      · rcases hs with rfl | hs
        · exact .name
        · exact .space hs
      · exact .arg ha (ih a ha hu)

instance (s : String) (t : TypeExpr) : Decidable (t.Contains s) :=
  decidable_of_iff _ contains_iff_exists_part.symm

end TypeExpr

namespace Substitution

variable {σ : Substitution} {f : String → String}

/-- The substitution in which `f` is applied to the names of the parameters, in place. -/
def mapNames (σ : Substitution) (f : String → String) : Substitution :=
  { σ with params := σ.params.map fun q => (f q.1, q.2) }

/-- The function that renames the parameters and leaves all other names. -/
def renameParam (σ : Substitution) (r : String → String) (s : String) : String :=
  if s ∈ σ.names then r s else s

/-! ## Looking up names -/

theorem splitAtFirst?_map {x : String} {path : List String} (h : ∀ s ∈ path, f s = f x → s = x) :
    splitAtFirst? (f x) (path.map f) =
      (splitAtFirst? x path).map fun p => (p.1.map f, p.2.map f) := by
  induction path with
  | nil => rfl
  | cons s path ih =>
    rw [List.forall_mem_cons] at h
    have hhead : f s = f x ↔ s = x := ⟨h.1, congrArg f⟩
    simp only [List.map_cons, splitAtFirst?, hhead, ih h.2]
    by_cases hs : s = x
    · simp [hs]
    · simp [hs, Option.map_map, Function.comp_def]

/-- If no segment is taken for a parameter that it was not, the same one is found in the path. -/
theorem scoped?_mapNames {path : List String}
    (h : ∀ n ∈ σ.names, ∀ s ∈ path, f s = f n → s = n) :
    (σ.mapNames f).scoped? (path.map f) =
      (σ.scoped? path).map fun s => (s.1.map f, s.2.1, s.2.2.map f) := by
  obtain ⟨params, this⟩ := σ
  unfold scoped? mapNames
  induction params with
  | nil => rfl
  | cons q params ih =>
    rw [names, List.map_cons, List.forall_mem_cons] at h
    simp only [List.map_cons, List.findSome?_cons, splitAtFirst?_map h.1]
    cases splitAtFirst? q.1 path with
    | none => exact ih h.2
    | some s => rfl

theorem get?_mapNames {name : String} (h : ∀ n ∈ σ.names, f name = f n → name = n) :
    (σ.mapNames f).get? (f name) = σ.get? name := by
  unfold get? mapNames
  rw [List.find?_map, Option.map_map]
  have hsame : σ.params.find? ((fun p => p.1 == f name) ∘ fun q => (f q.1, q.2)) =
      σ.params.find? fun p => p.1 == name := by
    apply List.find?_congr
    intro q hq
    rw [Bool.eq_iff_iff, Function.comp_apply, beq_iff_eq, beq_iff_eq]
    exact ⟨fun he => (h q.1 (List.mem_map_of_mem hq) he.symm).symm, congrArg f⟩
  rw [hsame]
  rfl

/-- Names that are not renamed stay in a path. -/
theorem map_eq_self (hother : ∀ s, s ∉ σ.names → f s = s) {path : List String}
    (h : ∀ s ∈ path, s ∉ σ.names) : path.map f = path :=
  (List.map_congr_left fun s hs => hother s (h s hs)).trans (List.map_id' path)

/-- If only one segment is a parameter, what stands around it is not renamed. -/
theorem scoped?_mapNames_of_one (hother : ∀ s, s ∉ σ.names → f s = s) {path : List String}
    (hpath : ∀ n ∈ σ.names, ∀ s ∈ path, f s = f n → s = n)
    (hone : (path.countP fun s => s ∈ σ.names) ≤ 1) :
    (σ.mapNames f).scoped? (path.map f) = σ.scoped? path := by
  rw [scoped?_mapNames hpath]
  cases hscoped : σ.scoped? path with
  | none => rfl
  | some s =>
    obtain ⟨before, bound, after⟩ := s
    obtain ⟨n, hn, rfl⟩ := scoped?_eq_some hscoped
    obtain ⟨hbefore, hafter⟩ := not_of_around (p := (· ∈ σ.names)) hone (List.mem_map_of_mem hn)
    rw [Option.map_some, map_eq_self hother hbefore, map_eq_self hother hafter]

/-! ## Type uses -/

section Uses

variable {ns : List String} {name : String} {as : List TypeExpr} {isConst : Bool}
  {sign : Option Indirection} {isBasic : Bool} (hother : ∀ s, s ∉ σ.names → f s = s)

include hother

/-- A type use that refers to no parameter keeps its name. -/
theorem mapNames_of_not_refersTo
    (h : ¬ (TypeExpr.mk ns name as isConst sign isBasic).RefersTo (· ∈ σ.names)) :
    (TypeExpr.mk ns name as isConst sign isBasic).mapNames f =
      .mk ns name (as.map (TypeExpr.mapNames f)) isConst sign isBasic := by
  obtain ⟨hpath, hbare⟩ := not_or.1 h
  have hns : ns.map f = ns := map_eq_self hother fun s hs hmem => hpath ⟨s, hs, hmem⟩
  have hname : (if ns.isEmpty && as.isEmpty then f name else name) = name := by
    split
    · next hempty =>
      rw [Bool.and_eq_true, List.isEmpty_iff, List.isEmpty_iff] at hempty
      exact hother name fun hmem => hbare ⟨hempty.1, hempty.2, hmem⟩
    · rfl
  rw [TypeExpr.mapNames, hns, hname, TypeExpr.mapNamesList_eq_map]

/-- One type use, whose arguments are done. -/
theorem replace?_mapNames (hpath : ∀ n ∈ σ.names, ∀ s ∈ ns, f s = f n → s = n)
    (hname : ∀ n ∈ σ.names, f name = f n → name = n)
    (hone : (ns.countP fun s => s ∈ σ.names) ≤ 1) (args : List TypeExpr) :
    (σ.mapNames f).replace? ((TypeExpr.mk ns name as isConst sign isBasic).mapNames f) args =
      σ.replace? (.mk ns name as isConst sign isBasic) args := by
  have hfound := scoped?_mapNames_of_one hother hpath hone
  have hget := get?_mapNames hname
  cases hscoped : σ.scoped? ns with
  | some s =>
    obtain ⟨before, bound, after⟩ := s
    obtain ⟨n, -, rfl⟩ := scoped?_eq_some hscoped
    have hbare : ((before ++ n :: after).isEmpty && as.isEmpty) = false := by simp
    rw [hscoped] at hfound
    rw [TypeExpr.mapNames, hbare, replace?_of_segment hfound, replace?_of_segment hscoped]
    rfl
  | none =>
    have hplain := scoped?_eq_none.1 hscoped
    by_cases hparam : ns = [] ∧ as = [] ∧ name ∈ σ.names
    · obtain ⟨rfl, rfl, hmem⟩ := hparam
      cases hbound : σ.get? name with
      | none => exact absurd hmem (get?_eq_none.1 hbound)
      | some bound =>
        rw [hbound] at hget
        rw [TypeExpr.mapNames, replace?_of_param rfl rfl hget, replace?_of_param rfl rfl hbound]
        rfl
    · have hrefers : ¬ (TypeExpr.mk ns name as isConst sign isBasic).RefersTo (· ∈ σ.names) :=
        not_or.2 ⟨fun ⟨s, hs, hmem⟩ => hplain s hs hmem, hparam⟩
      rw [map_eq_self hother hplain] at hfound
      rw [mapNames_of_not_refersTo hother hrefers]
      refine replace?_congr ?_ hfound ?_ List.map_eq_nil_iff args
      · rfl
      · intro hns has
        have hkept := hother name fun hmem => hparam ⟨hns, List.map_eq_nil_iff.1 has, hmem⟩
        rwa [hkept] at hget

end Uses

/-- A renamed name is that of a renamed parameter only if it was the name of the parameter. -/
theorem eq_of_renameParam {r : String → String} {s n : String}
    (hinj : ∀ m ∈ σ.names, ∀ n ∈ σ.names, r m = r n → m = n) (hn : n ∈ σ.names)
    (hnew : r n ∈ σ.names ∨ s ≠ r n) (h : σ.renameParam r s = σ.renameParam r n) : s = n := by
  rw [renameParam, renameParam, if_pos hn] at h
  by_cases hs : s ∈ σ.names
  · rw [if_pos hs] at h
    exact hinj s hs n hn h
  · rw [if_neg hs] at h
    rcases hnew with hmem | hne
    · exact absurd (h ▸ hmem) hs
    · exact absurd h hne

/-- **The names of parameters do not matter.** Where no path in a type use has more than one segment
that is a parameter, the parameters can be renamed in it and in the substitution, and the same
becomes of it. The new names have to be different from each other, and those that are not names of
parameters already must not be in the type use. They may even be `This`, since parameters come
before `This`. -/
theorem subst?_mapNames {r : String → String} {t : TypeExpr}
    (hone : ∀ u ∈ t.parts, (u.namespaces.countP fun s => s ∈ σ.names) ≤ 1)
    (hinj : ∀ m ∈ σ.names, ∀ n ∈ σ.names, r m = r n → m = n)
    (hnew : ∀ n ∈ σ.names, r n ∈ σ.names ∨ ¬ t.Contains (r n)) :
    (σ.mapNames (σ.renameParam r)).subst? (t.mapNames (σ.renameParam r)) = σ.subst? t := by
  induction t using TypeExpr.induct with
  | mk ns name as c i b ih =>
    obtain ⟨hself, hsub⟩ := TypeExpr.forall_mem_parts.1 hone
    refine subst?_congr ?_ (replace?_mapNames ?_ ?_ ?_ hself)
    · rw [TypeExpr.mapNames, TypeExpr.args, TypeExpr.mapNamesList_eq_map, TypeExpr.args,
        List.forall₂_map_left_iff, List.forall₂_same]
      intro a ha
      exact ih a ha (hsub a ha) fun n hn => (hnew n hn).imp_right fun hno h => hno (.arg ha h)
    · intro s hs
      exact if_neg hs
    · intro n hn s hs
      refine eq_of_renameParam hinj hn ((hnew n hn).imp_right fun hno => ?_)
      rintro rfl
      exact hno (.space hs)
    · intro n hn
      refine eq_of_renameParam hinj hn ((hnew n hn).imp_right fun hno => ?_)
      rintro rfl
      exact hno .name

/-- One parameter is renamed to the other one, and the other one to a new name. -/
def shifted (s : String) : String := if s = "U" then "T" else "W"

/-- The map from names behind a parameter to items of the class, with the parameters renamed: the
same becomes of it as before. -/
theorem keyed_shifted :
    (keyed.mapNames (boxed.renameParam shifted)).text =
      "std::map<traits::T::Inner::Key<W>, const This::Item<W, This>&, T>" ∧
    (boxed.mapNames (boxed.renameParam shifted)).names = ["T", "W"] ∧
    ∃ t, (boxed.withThis ⟨["ns"], "Fun", []⟩).subst? keyed = some t ∧
      ((boxed.withThis ⟨["ns"], "Fun", []⟩).mapNames (boxed.renameParam shifted)).subst?
        (keyed.mapNames (boxed.renameParam shifted)) = some t ∧
      t.text = "std::map<traits::b::Box<const Grid<A*>, int>::Inner::Key, " ++
        "const ns::Fun::Item<V, ns::Fun>&, b::Box<const Grid<A*>, int>>" := by
  refine ⟨by decide +kernel, by decide +kernel, ?_⟩
  have hsame := subst?_mapNames (σ := boxed.withThis ⟨["ns"], "Fun", []⟩) (r := shifted)
    (t := keyed) (by decide +kernel) (by decide +kernel) (by decide +kernel)
  have hbecomes : ((boxed.withThis ⟨["ns"], "Fun", []⟩).subst? keyed).map TypeExpr.text =
      some ("std::map<traits::b::Box<const Grid<A*>, int>::Inner::Key, " ++
        "const ns::Fun::Item<V, ns::Fun>&, b::Box<const Grid<A*>, int>>") := by decide +kernel
  obtain ⟨t, ht, htext⟩ := Option.map_eq_some_iff.1 hbecomes
  exact ⟨t, ht, hsame.trans ht, htext⟩

end Substitution

end TemplateIdl
