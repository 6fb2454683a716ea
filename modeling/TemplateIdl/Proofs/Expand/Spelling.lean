import TemplateIdl.Proofs.Expand.Splice
import TemplateIdl.TypeExpr.Cpp

/-!
# Spelling — the C++ form of names that depend on a parameter

The name that is bound to a parameter becomes a segment of a path as it is written in an interface
file, and the C++ form of a type use gives the segments of its path as they are. So pointers among
the template arguments stay `*` and `@`, which in C++ are `std::shared_ptr` and `*`.

* `TypeExpr.PointerFree`, type uses without pointers;
* `textWeight`, which tells the two forms apart, and `TypeExpr.textWeight_text`, by how much;
* `Typename.text_eq_cpp_iff`, the two forms of a name are the same exactly if there is no pointer
  among its arguments;
* `Substitution.cpp_dependent_iff`, the C++ form of a name in the scope of a parameter or of `This`.
-/

namespace TemplateIdl

namespace TypeExpr

/-! ## Pointers -/

/-- A shared or raw pointer. -/
def IsPointer (t : TypeExpr) : Prop :=
  t.indirection = some .shared ∨ t.indirection = some .raw

instance : DecidablePred IsPointer :=
  fun _ => inferInstanceAs (Decidable (_ ∨ _))

/-- Neither the type use nor any of its arguments, at any depth, is a pointer. -/
def PointerFree (t : TypeExpr) : Prop := ∀ u ∈ t.parts, ¬ u.IsPointer

instance : DecidablePred PointerFree :=
  fun t => inferInstanceAs (Decidable (∀ u ∈ t.parts, _))

/-- Number of pointers in a type use. -/
def pointers (t : TypeExpr) : Nat := t.parts.countP (·.IsPointer)

/-- A type use has its own pointer, if it is one, and those of its arguments. -/
theorem pointers_mk (ns : List String) (name : String) (args : List TypeExpr) (isConst : Bool)
    (sign : Option Indirection) (isBasic : Bool) :
    pointers (.mk ns name args isConst sign isBasic) =
      (partsList args).countP (·.IsPointer) +
        if (mk ns name args isConst sign isBasic).IsPointer then 1 else 0 := by
  rw [pointers, parts, List.countP_cons]
  simp

end TypeExpr

/-! ## The weight of a text -/

/-- The weight of the signs for pointers in a text. That for a raw pointer weighs more in an
interface file than in C++. -/
def textWeight (s : String) : Nat := 2 * s.toList.count '@' + s.toList.count '*'

theorem textWeight_append (s t : String) : textWeight (s ++ t) = textWeight s + textWeight t := by
  rw [textWeight, String.toList_append, List.count_append, List.count_append, textWeight,
    textWeight]
  omega

theorem textWeight_wrap (sign : Option Indirection) (s : String) :
    textWeight s + textWeight (indirectionText sign) =
      textWeight (Indirection.wrap sign s) +
        if sign = some .shared ∨ sign = some .raw then 1 else 0 := by
  rcases sign with _ | _ | _ | _
  · rfl
  · have hopen : textWeight "std::shared_ptr<" = 0 := by decide
    have hclose : textWeight ">" = 0 := by decide
    have hfront := textWeight_append "std::shared_ptr<" s
    have hback := textWeight_append ("std::shared_ptr<" ++ s) ">"
    show textWeight s + 1 = textWeight ("std::shared_ptr<" ++ s ++ ">") + 1
    omega
  · have hstar : textWeight "*" = 1 := by decide
    have hraw := textWeight_append s "*"
    show textWeight s + 2 = textWeight (s ++ "*") + 1
    omega
  · exact (textWeight_append s "&").symm

namespace TypeExpr

theorem constant_eq (isConst : Bool) (s : String) :
    constant isConst s = (if isConst then "const " else "") ++ s := by
  cases isConst with
  | false => exact String.empty_append.symm
  | true => rfl

/-- A type use to which no convention applies. -/
theorem cppWith_mk {c : Conventions} {name : String} {args : List TypeExpr}
    (h : args = [] → c.alias? name = none) (ns : List String) (isConst : Bool)
    (sign : Option Indirection) (isBasic : Bool) :
    cppWith c (.mk ns name args isConst sign isBasic) =
      constant isConst
        (Indirection.wrap sign (pathText ns name ++ angled (args.map (cppWith c)))) := by
  have hnone : (if args.isEmpty then c.alias? name else none) = none := by
    by_cases hargs : args = []
    · rw [h hargs, ite_self]
    · rw [if_neg (by simpa using hargs)]
  rw [cppWith, hnone, cppsWith_eq_map]

theorem cpp_mk (ns : List String) (name : String) (args : List TypeExpr) (isConst : Bool)
    (sign : Option Indirection) (isBasic : Bool) :
    cpp (.mk ns name args isConst sign isBasic) =
      constant isConst (Indirection.wrap sign (pathText ns name ++ angled (args.map cpp))) :=
  cppWith_mk (fun _ => Conventions.alias?_empty name) ns isConst sign isBasic

/-- What holds of the arguments holds of their texts in brackets. -/
theorem textWeight_angled {ts : List TypeExpr}
    (h : ∀ t ∈ ts, textWeight t.text = textWeight t.cpp + t.pointers) :
    textWeight (angled (ts.map text)) =
      textWeight (angled (ts.map cpp)) + (partsList ts).countP (·.IsPointer) := by
  have hjoin : textWeight (", ".intercalate (ts.map text)) =
      textWeight (", ".intercalate (ts.map cpp)) + (partsList ts).countP (·.IsPointer) := by
    induction ts with
    | nil => rfl
    | cons t ts ih =>
      rw [List.forall_mem_cons] at h
      have hrest := ih h.2
      have hcount : (partsList (t :: ts)).countP (·.IsPointer) =
          t.pointers + (partsList ts).countP (·.IsPointer) := by
        rw [partsList, List.countP_append]
        rfl
      rw [hcount, List.map_cons, List.map_cons]
      by_cases hts : ts = []
      · rw [hts, List.map_nil, List.map_nil, String.intercalate_singleton,
          String.intercalate_singleton]
        exact h.1
      · have htexts : ts.map text ≠ [] := by simpa using hts
        have hcpps : ts.map cpp ≠ [] := by simpa using hts
        rw [String.intercalate_cons_of_ne_nil htexts, String.intercalate_cons_of_ne_nil hcpps]
        simp only [textWeight_append, h.1, hrest]
        omega
  unfold angled
  rw [List.isEmpty_map, List.isEmpty_map]
  split
  · next hnil =>
    rw [List.isEmpty_iff.1 hnil]
    rfl
  · simp only [textWeight_append, hjoin]
    omega

/-- Each pointer adds one to the weight of the form in an interface file. -/
theorem textWeight_text (t : TypeExpr) : textWeight t.text = textWeight t.cpp + t.pointers := by
  induction t using TypeExpr.induct with
  | mk ns name args isConst sign isBasic ih =>
    have hpointer : (mk ns name args isConst sign isBasic).IsPointer ↔
        sign = some .shared ∨ sign = some .raw := Iff.rfl
    have hsign := textWeight_wrap sign (pathText ns name ++ angled (args.map cpp))
    have hargs := textWeight_angled ih
    rw [pointers_mk, if_congr hpointer rfl rfl, cpp_mk, constant_eq, text, texts_eq_map]
    simp only [textWeight_append] at hsign ⊢
    omega

/-- Without pointers, both forms are the same. -/
theorem text_eq_cpp {t : TypeExpr} (h : t.PointerFree) : t.text = t.cpp := by
  induction t using TypeExpr.induct with
  | mk ns name args isConst sign isBasic ih =>
    have hargs : args.map text = args.map cpp := by
      apply List.map_congr_left
      intro a ha
      refine ih a ha ?_
      intro u hu
      exact h u (mem_parts.2 (.inr ⟨a, ha, hu⟩))
    have hself : ¬ (mk ns name args isConst sign isBasic).IsPointer := h _ (self_mem_parts _)
    have hsign : ∀ s, s ++ indirectionText sign = Indirection.wrap sign s := by
      intro s
      rcases sign with _ | _ | _ | _
      · exact String.append_empty
      · exact absurd (.inl rfl) hself
      · exact absurd (.inr rfl) hself
      · rfl
    rw [cpp_mk, constant_eq, ← hsign, ← hargs, text, texts_eq_map]
    simp only [String.append_assoc]

end TypeExpr

/-- The canonical form of a name is its C++ form exactly if there is no pointer among its
arguments. -/
theorem Typename.text_eq_cpp_iff {t : Typename} :
    t.text = t.cpp ↔ ∀ a ∈ t.args, a.PointerFree := by
  constructor
  · intro h a ha u hu
    have hcpp : t.cpp = t.qualifiedName ++ angled (t.args.map TypeExpr.cpp) := rfl
    have hweight := congrArg textWeight h
    rw [text, hcpp, textWeight_append, textWeight_append,
      TypeExpr.textWeight_angled fun u _ => u.textWeight_text] at hweight
    have hnone : (TypeExpr.partsList t.args).countP (·.IsPointer) = 0 := by omega
    rw [List.countP_eq_zero] at hnone
    simpa using hnone u (TypeExpr.mem_partsList.2 ⟨a, ha, hu⟩)
  · intro h
    have hargs : t.args.map TypeExpr.text = t.args.map TypeExpr.cpp :=
      List.map_congr_left fun a ha => TypeExpr.text_eq_cpp (h a ha)
    rw [text, hargs]
    rfl

namespace Substitution

variable {σ : Substitution} {p name : String} {bound : TypeExpr} {cls : Typename}
  {segs : List String}

/-! ## Names in the scope of a parameter -/

/-- A parameter in front of segments that are no parameters is the one that is found. -/
theorem scoped?_cons (hget : σ.get? p = some bound) (hsegs : ∀ s ∈ segs, s ∉ σ.names) :
    σ.scoped? (p :: segs) = some ([], bound, segs) := by
  obtain ⟨q, hq, rfl⟩ := Option.map_eq_some_iff.1 hget
  obtain ⟨hname, before, after, hparams, hbefore⟩ := List.find?_eq_some_iff_append.1 hq
  rw [beq_iff_eq] at hname
  subst hname
  have hfound : σ.params.find? (fun r => r.1 ∈ q.1 :: segs) = some q := by
    rw [List.find?_eq_some_iff_append]
    refine ⟨by simp, before, after, hparams, ?_⟩
    intro r hr
    have hne : r.1 ≠ q.1 := by simpa using hbefore r hr
    have hmem : r.1 ∈ σ.names := by
      rw [names, hparams]
      exact List.mem_map_of_mem (List.mem_append_left _ hr)
    have hout : r.1 ∉ q.1 :: segs := by
      rw [List.mem_cons]
      exact not_or.2 ⟨hne, fun hseg => hsegs _ hseg hmem⟩
    simpa using hout
  rw [scoped?_eq_of_find? hfound, List.idxOf_cons_self]
  rfl

/-- The C++ form of a name in the scope of another one, whose text is a segment there. -/
theorem cpp_ofPath_iff (h : "" ∉ pathOf cls) (t : TypeExpr) (hconst : t.isConst = false)
    (hsign : t.indirection = none) (segs : List String) (name : String) :
    (t.rename (.ofPath (pathOf cls ++ segs) name []) false).cpp =
        "::".intercalate (cls.text :: (segs ++ [name])) ∧
      ((t.rename (.ofPath (pathOf cls ++ segs) name []) false).cpp =
          "::".intercalate (cls.cpp :: (segs ++ [name])) ↔ ∀ a ∈ cls.args, a.PointerFree) := by
  have hne : segs ++ [name] ≠ [] := List.append_ne_nil_of_right_ne_nil _ (List.cons_ne_nil _ _)
  have hcpp : (t.rename (.ofPath (pathOf cls ++ segs) name []) false).cpp =
      "::".intercalate (cls.text :: (segs ++ [name])) := by
    rw [Typename.ofPath_of_head (head?_pathOf_append h segs), TypeExpr.rename, TypeExpr.ofParts,
      TypeExpr.cpp_mk, hconst, hsign]
    calc pathText (pathOf cls ++ segs) name ++ ""
        = "::".intercalate ([] ++ pathOf cls ++ (segs ++ [name])) := by
          rw [String.append_empty, pathText_eq_intercalate, List.append_assoc, List.nil_append]
      _ = "::".intercalate (cls.text :: (segs ++ [name])) := intercalate_pathOf_splice _ _ _
  refine ⟨hcpp, ?_⟩
  rw [hcpp, String.intercalate_cons_of_ne_nil hne, String.intercalate_cons_of_ne_nil hne,
    String.append_left_inj, String.append_left_inj]
  exact Typename.text_eq_cpp_iff

/-- **The C++ form of a name in the scope of a parameter.** A parameter alone has the C++ form of
the name that is bound to it. In front of other names it has the canonical form, which is the C++
form exactly if there is no pointer among the arguments. The same is true of `This` and the class
that it stands for. -/
theorem cpp_dependent_iff (hsegs : ∀ s ∈ segs, s ∉ σ.names ∧ s ≠ thisName) (name : String)
    (isBasic : Bool) :
    (∀ p bound, σ.get? p = some bound → bound.WellFormed false →
      ∃ t u, σ.subst? (.mk (p :: segs) name [] false none isBasic) = some t ∧
        σ.subst? (.named p) = some u ∧ u.cpp = bound.typename.cpp ∧
        t.cpp = "::".intercalate (bound.canonical :: (segs ++ [name])) ∧
        (t.cpp = "::".intercalate (bound.typename.cpp :: (segs ++ [name])) ↔
          ∀ a ∈ bound.args, a.PointerFree)) ∧
    (∀ cls, σ.this = some cls → thisName ∉ σ.names → "" ∉ cls.namespaces → cls.name ≠ "" →
      ∃ t u, σ.subst? (.mk (thisName :: segs) name [] false none isBasic) = some t ∧
        σ.subst? (.named thisName) = some u ∧ u.cpp = cls.cpp ∧
        t.cpp = "::".intercalate (cls.text :: (segs ++ [name])) ∧
        (t.cpp = "::".intercalate (cls.cpp :: (segs ++ [name])) ↔
          ∀ a ∈ cls.args, a.PointerFree)) := by
  have hplain : ∀ s ∈ segs, s ∉ σ.names := fun s hs => (hsegs s hs).1
  refine ⟨?_, ?_⟩
  · intro p bound hget hwf
    have hbare : σ.subst? (.named p) =
        some ((TypeExpr.named p).rename bound.typename bound.isBasic) :=
      subst?_eq_some.2 ⟨[], .nil, replace?_of_param rfl rfl hget []⟩
    have hscoped := replace?_of_segment
      (show σ.scoped? (TypeExpr.mk (p :: segs) name [] false none isBasic).namespaces =
        some ([], bound, segs) from scoped?_cons hget hplain) []
    exact ⟨_, _, subst?_eq_some.2 ⟨[], .nil, hscoped⟩, hbare, TypeExpr.cpp_mk _ _ _ _ _ _,
      cpp_ofPath_iff (not_mem_pathOf_of_wellFormed hwf) _ rfl rfl segs name⟩
  · intro cls hthis hparam hns hname
    have hbare : σ.subst? (.named thisName) =
        some ((TypeExpr.named thisName).rename cls false) := by
      refine subst?_eq_some.2 ⟨[], .nil, ?_⟩
      rw [replace?_of_this rfl rfl rfl (get?_eq_none.2 hparam), hthis, Option.map_some]
    have hout : ∀ s ∈ (TypeExpr.mk (thisName :: segs) name [] false none isBasic).namespaces,
        s ∉ σ.names := by
      intro s hs
      rcases List.mem_cons.1 hs with rfl | hs
      · exact hparam
      · exact hplain s hs
    have hsplit : splitAtFirst? thisName
        (TypeExpr.mk (thisName :: segs) name [] false none isBasic).namespaces = some ([], segs) :=
      if_pos rfl
    have hinner := replace?_of_inner (scoped?_eq_none.2 hout) hsplit []
    rw [hthis, Option.map_some] at hinner
    exact ⟨_, _, subst?_eq_some.2 ⟨[], .nil, hinner⟩, hbare, TypeExpr.cpp_mk _ _ _ _ _ _,
      cpp_ofPath_iff (not_mem_pathOf hns hname) _ rfl rfl segs name⟩

/-- A list of shared pointers. -/
def listed : TypeExpr :=
  .mk ["std"] "list" [.mk [] "A" [] false (some .shared) false] false none false

theorem wellFormed_listed : listed.WellFormed false := by
  have hread : TypeExpr.parse "std::list<A*>" = .ok listed := by decide +kernel
  exact TypeExpr.wellFormed_of_parse hread

/-- Alone, the parameter is a list of shared pointers in C++, and in front of a name it is not. -/
theorem listed_cpp : ∃ t u,
    subst? ⟨[("T", listed)], none⟩ (.mk ["T"] "Value" [] false none false) = some t ∧
    subst? ⟨[("T", listed)], none⟩ (.named "T") = some u ∧
    u.cpp = "std::list<std::shared_ptr<A>>" ∧ t.cpp = "std::list<A*>::Value" := by
  obtain ⟨hparam, -⟩ := cpp_dependent_iff
    (show ∀ s ∈ ([] : List String), s ∉ names ⟨[("T", listed)], none⟩ ∧ s ≠ thisName by simp)
    "Value" false
  obtain ⟨t, u, ht, hu, hbare, hscoped, -⟩ := hparam "T" listed rfl wellFormed_listed
  exact ⟨t, u, ht, hu, hbare.trans (by decide +kernel), hscoped.trans (by decide +kernel)⟩

/-- So a name in the scope of a parameter is not always that of the type which the parameter is in
C++. -/
theorem not_forall_cpp_dependent : ¬ ∀ (σ : Substitution) (p : String) (bound : TypeExpr)
    (segs : List String) (name : String) (t : TypeExpr), σ.get? p = some bound →
    bound.WellFormed false → (∀ s ∈ segs, s ∉ σ.names ∧ s ≠ thisName) →
    σ.subst? (.mk (p :: segs) name [] false none false) = some t →
    t.cpp = "::".intercalate (bound.typename.cpp :: (segs ++ [name])) := by
  intro h
  have hcpp := h ⟨[("T", listed)], none⟩ "T" listed [] "Value"
    (.mk ["std", "list<A*>"] "Value" [] false none false) rfl wellFormed_listed (by simp)
    (by decide +kernel)
  revert hcpp
  decide +kernel

end Substitution

end TemplateIdl
