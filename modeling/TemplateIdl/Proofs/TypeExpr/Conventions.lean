import Mathlib.Data.List.Induction
import TemplateIdl.Proofs.Expand.Spelling

/-!
# Conventions — special names as other types

To write a type under a project's conventions is to write another type without any: the one in which
each use of a special name without arguments is replaced by the constant reference that the
conventions ask for.

* `Conventions.ofList` and `Conventions.lastHome?`, names registered one after the other and what
  counts of that (`Conventions.alias?_ofList`);
* `TypeExpr.mapLeaves`, a type use in which the uses without arguments are replaced, at all depths;
* `TypeExpr.conformTo` and `TypeExpr.cppWith_eq_cpp_conformTo`, what the conventions replace, and
  `TypeExpr.cppWith_ofList`, the same for names that were registered.
-/

namespace TemplateIdl

/-! ## Registered names -/

namespace Conventions

/-- The table after names were registered with their namespaces, one after the other. -/
def ofList (regs : List (String × String)) : Conventions :=
  regs.foldl (fun c r => c.withAlias r.1 r.2) empty

/-- The namespace that a name was registered with last. -/
def lastHome? (regs : List (String × String)) (name : String) : Option String :=
  (regs.reverse.find? fun r => r.1 == name).map Prod.snd

theorem alias?_ofList (regs : List (String × String)) (name : String) :
    (ofList regs).alias? name = lastHome? regs name := by
  induction regs using List.reverseRecOn with
  | nil => rfl
  | append_singleton regs r ih =>
    have hlast : ofList (regs ++ [r]) = (ofList regs).withAlias r.1 r.2 := by simp [ofList]
    rw [hlast, alias?_withAlias, ih, lastHome?, lastHome?, List.reverse_append]
    by_cases h : r.1 = name <;> simp [h]

theorem lastHome?_eq_none {regs : List (String × String)} {name : String} :
    lastHome? regs name = none ↔ name ∉ regs.map Prod.fst := by
  rw [lastHome?, Option.map_eq_none_iff, List.find?_eq_none, List.mem_map]
  constructor
  · rintro h ⟨r, hr, rfl⟩
    exact h r (List.mem_reverse.2 hr) (beq_self_eq_true r.1)
  · intro h r hr he
    exact h ⟨r, List.mem_reverse.1 hr, beq_iff_eq.1 he⟩

end Conventions

namespace TypeExpr

/-! ## Uses without arguments -/

mutual

/-- The type use in which `f` is applied to the uses without arguments, at all depths. -/
def mapLeaves (f : TypeExpr → TypeExpr) : TypeExpr → TypeExpr
  | mk ns name args isConst sign isBasic =>
    if args.isEmpty then f (mk ns name args isConst sign isBasic)
    else mk ns name (mapLeavesList f args) isConst sign isBasic

/-- The type uses in which `f` is applied to the uses without arguments. -/
def mapLeavesList (f : TypeExpr → TypeExpr) : List TypeExpr → List TypeExpr
  | [] => []
  | t :: ts => mapLeaves f t :: mapLeavesList f ts

end

theorem mapLeavesList_eq_map (f : TypeExpr → TypeExpr) (ts : List TypeExpr) :
    mapLeavesList f ts = ts.map (mapLeaves f) := by
  induction ts with
  | nil => rfl
  | cons t ts ih => rw [mapLeavesList, ih, List.map_cons]

variable {f : TypeExpr → TypeExpr} {t : TypeExpr}

theorem mapLeaves_of_not_isTemplated (h : t.isTemplated = false) : t.mapLeaves f = f t := by
  cases t with
  | mk ns name args isConst sign isBasic =>
    have hargs : args.isEmpty = true := by simpa [isTemplated, TypeExpr.args] using h
    rw [mapLeaves, if_pos hargs]

theorem mapLeaves_of_isTemplated (h : t.isTemplated = true) :
    t.mapLeaves f =
      mk t.namespaces t.name (t.args.map (mapLeaves f)) t.isConst t.indirection t.isBasic := by
  cases t with
  | mk ns name args isConst sign isBasic =>
    have hargs : ¬ args.isEmpty = true := by simpa [isTemplated, TypeExpr.args] using h
    rw [mapLeaves, if_neg hargs, mapLeavesList_eq_map]
    rfl

/-- Nothing is replaced in a type use if each use in it would be replaced by itself. -/
theorem mapLeaves_eq_self (h : ∀ u ∈ t.parts, u.isTemplated = false → f u = u) :
    t.mapLeaves f = t := by
  induction t using TypeExpr.induct with
  | mk ns name args isConst sign isBasic ih =>
    have hargs : args.map (mapLeaves f) = args := by
      refine (List.map_congr_left fun a ha => ?_).trans (List.map_id args)
      exact ih a ha fun u hu => h u (mem_parts.2 (.inr ⟨a, ha, hu⟩))
    rcases ht : (mk ns name args isConst sign isBasic).isTemplated with _ | _
    · rw [mapLeaves_of_not_isTemplated ht]
      exact h _ (self_mem_parts _) ht
    · rw [mapLeaves_of_isTemplated ht]
      exact congrArg (mk ns name · isConst sign isBasic) hargs

/-! ## Special names -/

/-- The constant reference to the name of a use, in the namespaces of the use or else in `home`. -/
def toConstRef (home : String) (t : TypeExpr) : TypeExpr :=
  ofTypename ⟨if t.namespaces = [] then [home] else t.namespaces, t.name, []⟩ true (some .ref)

theorem cpp_toConstRef (home : String) (t : TypeExpr) :
    (t.toConstRef home).cpp = aliasText home t.namespaces t.name := by
  rw [toConstRef, ofTypename, ofParts, cpp_mk, aliasText, String.append_assoc]
  simp only [List.isEmpty_iff]
  exact congrArg (fun s => "const " ++ (s ++ "&")) String.append_empty

/-- The type use in which the uses without arguments of the names that `home?` knows are constant
references, at all depths. -/
def conformTo (home? : String → Option String) (t : TypeExpr) : TypeExpr :=
  t.mapLeaves fun u => (home? u.name).elim u fun home => u.toConstRef home

/-- The conventions replace the special names, and write the type that comes of it. -/
theorem cppWith_eq_cpp_conformTo (c : Conventions) (t : TypeExpr) :
    t.cppWith c = (t.conformTo c.alias?).cpp := by
  -- along the arguments: a use without any is replaced or left, and a use with some stays as it is
  induction t using TypeExpr.induct with
  | mk ns name args isConst sign isBasic ih =>
    cases args with
    | nil =>
      rw [conformTo, mapLeaves_of_not_isTemplated rfl]
      rcases halias : c.alias? name with _ | home
      · rw [cppWith_mk (fun _ => halias), TypeExpr.name, halias, Option.elim_none, cpp_mk]
        rfl
      · rw [TypeExpr.name, halias, Option.elim_some, cpp_toConstRef, cppWith, List.isEmpty_nil,
          if_pos rfl, halias]
        rfl
    | cons a as =>
      have hargs : (a :: as).map (cppWith c) =
          ((a :: as).map fun u => u.conformTo c.alias?).map cpp := by
        rw [List.map_map]
        exact List.map_congr_left ih
      rw [cppWith_mk (fun hnil => absurd hnil (List.cons_ne_nil a as)), hargs, conformTo,
        mapLeaves_of_isTemplated rfl, cpp_mk]
      rfl

/-- **Conventions rewrite types.** After names were registered, a type is written as the one in which
the uses of these names without arguments are constant references, at all depths: in namespaces of
their own, or else in the one that the name was registered with last. A type in which there are no
such uses is written as without conventions. -/
theorem cppWith_ofList (regs : List (String × String)) (t : TypeExpr) :
    t.cppWith (.ofList regs) = (t.conformTo (Conventions.lastHome? regs)).cpp ∧
      ((∀ u ∈ t.parts, u.isTemplated = false → u.name ∉ regs.map Prod.fst) →
        t.cppWith (.ofList regs) = t.cpp) := by
  have hregs : (Conventions.ofList regs).alias? = Conventions.lastHome? regs :=
    funext (Conventions.alias?_ofList regs)
  rw [cppWith_eq_cpp_conformTo, hregs]
  refine ⟨rfl, fun h => ?_⟩
  rw [conformTo, mapLeaves_eq_self]
  intro u hu hleaf
  rw [Conventions.lastHome?_eq_none.2 (h u hu hleaf), Option.elim_none]

/-- `Matrix` is registered twice, and `Vector` once. -/
def twoHomes : List (String × String) :=
  [("Matrix", "gtsam"), ("Vector", "gtsam"), ("Matrix", "Eigen")]

/-- A bare name, a pointer to a qualified one and a template of a special name, under templates. -/
def specialArgs : TypeExpr :=
  .mk ["std"] "map"
    [.named "Matrix",
      .mk [] "List"
        [.mk ["lin"] "Vector" [] true (some .shared) false,
          .mk [] "Matrix" [.named "double"] false none false]
        false (some .raw) false]
    false none false

/-- Under the last registrations only the names without arguments are replaced. A pointer to a
template of a special name is written as without conventions. -/
theorem twoHomes_cpp :
    TypeExpr.parse "std::map<Matrix, List<const lin::Vector*, Matrix<double>>@>" = .ok specialArgs ∧
    specialArgs.cppWith (.ofList twoHomes) =
      "std::map<const Eigen::Matrix&, List<const lin::Vector&, Matrix<double>>*>" ∧
    cppWith (.ofList twoHomes) (.mk [] "Vector" [.named "double"] false (some .shared) false) =
      cpp (.mk [] "Vector" [.named "double"] false (some .shared) false) := by
  obtain ⟨hspecial, -⟩ := cppWith_ofList twoHomes specialArgs
  obtain ⟨-, hplain⟩ := cppWith_ofList twoHomes
    (.mk [] "Vector" [.named "double"] false (some .shared) false)
  exact ⟨by decide +kernel, hspecial.trans (by decide +kernel), hplain (by decide +kernel)⟩

end TypeExpr

end TemplateIdl
