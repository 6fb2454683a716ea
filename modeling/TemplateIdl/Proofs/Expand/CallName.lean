import TemplateIdl.Decl.Class
import TemplateIdl.Proofs.Expand.Spelling

/-!
# Call names — instances of forward declarations in C++

An instance of a forward declaration has the canonical forms of its bindings in its C++ name, where
functions and classes have their C++ forms. In C++ no type is shorter than in an interface file, and
joined texts of which none is longer than its counterpart are the same only if each of them is.

* `eq_of_intercalate_eq`, what joined texts tell of their parts;
* `TypeExpr.length_text_le` and `TypeExpr.canonical_eq_cpp_iff`, the two forms of a type use;
* `ForwardDecl.cpp_instance_iff`, the names of instances of forward declarations beside the call
  names of functions and the names of classes.
-/

namespace TemplateIdl

/-! ## Joined texts -/

section Join

variable {sep : String} {xs ys : List String}

theorem length_intercalate_le (h : List.Forall₂ (fun x y => x.length ≤ y.length) xs ys) :
    (sep.intercalate xs).length ≤ (sep.intercalate ys).length := by
  induction h with
  | nil => exact le_rfl
  | cons hxy hrest ih =>
    cases hrest with
    | nil => rwa [String.intercalate_singleton, String.intercalate_singleton]
    | cons =>
      rw [String.intercalate_cons_cons, String.intercalate_cons_cons]
      simp only [String.length_append]
      omega

/-- If no text is longer than its counterpart, texts that are the same when they are joined are the
same. -/
theorem eq_of_intercalate_eq (h : List.Forall₂ (fun x y => x.length ≤ y.length) xs ys)
    (heq : sep.intercalate xs = sep.intercalate ys) : xs = ys := by
  induction h with
  | nil => rfl
  | @cons x y xs ys hxy hrest ih =>
    cases hrest with
    | nil =>
      rw [String.intercalate_singleton, String.intercalate_singleton] at heq
      rw [heq]
    | @cons x' y' xs ys hxy' hrest =>
      rw [String.intercalate_cons_cons, String.intercalate_cons_cons] at heq
      -- both parts have to be as long as their counterparts, so the join is cut in one place
      have hle : (sep.intercalate (x' :: xs)).length ≤ (sep.intercalate (y' :: ys)).length :=
        length_intercalate_le (.cons hxy' hrest)
      have hlength := congrArg String.length heq
      simp only [String.length_append] at hlength
      have hlists := congrArg String.toList heq
      simp only [String.toList_append, List.append_assoc] at hlists
      obtain ⟨hhead, htail⟩ := List.append_inj hlists (by simp only [String.length_toList]; omega)
      rw [String.toList_inj.1 hhead, ih (String.toList_inj.1 (List.append_cancel_left htail))]

end Join

namespace TypeExpr

/-! ## The two forms of a type use -/

theorem cpp_eq (t : TypeExpr) :
    t.cpp = constant t.isConst (Indirection.wrap t.indirection t.typename.cpp) := by
  cases t with
  | mk ns name args isConst sign isBasic =>
    rw [cpp_mk]
    rfl

/-- What the sign adds in C++ is at least as long as the sign. -/
theorem length_wrap_le (sign : Option Indirection) (s : String) :
    s.length + (indirectionText sign).length ≤ (Indirection.wrap sign s).length := by
  rcases sign with _ | _ | _ | _
  · exact le_rfl
  · show s.length + 1 ≤ ("std::shared_ptr<" ++ s ++ ">").length
    have hopen : "std::shared_ptr<".length = 16 := by decide
    simp only [String.length_append, hopen]
    omega
  · exact (String.length_append s "*").ge
  · exact (String.length_append s "&").ge

theorem length_indirectionText_pos {sign : Option Indirection} (h : sign ≠ none) :
    0 < (indirectionText sign).length := by
  rcases sign with _ | _ | _ | _
  · exact absurd rfl h
  all_goals decide

theorem length_constant (isConst : Bool) (s : String) :
    (constant isConst s).length = (if isConst then "const " else "").length + s.length := by
  rw [constant_eq, String.length_append]

/-- Brackets around the arguments keep the order of the lengths. -/
theorem length_angled_le {ts : List TypeExpr}
    (h : ∀ t ∈ ts, t.text.length ≤ t.cpp.length) :
    (angled (ts.map text)).length ≤ (angled (ts.map cpp)).length := by
  have hjoin : (", ".intercalate (ts.map text)).length ≤ (", ".intercalate (ts.map cpp)).length := by
    apply length_intercalate_le
    rw [List.forall₂_map_left_iff, List.forall₂_map_right_iff, List.forall₂_same]
    exact h
  unfold angled
  rw [List.isEmpty_map, List.isEmpty_map]
  split
  · exact le_rfl
  · simp only [String.length_append]
    omega

/-- In C++ a type use is no shorter. -/
theorem length_text_le (t : TypeExpr) : t.text.length ≤ t.cpp.length := by
  induction t using TypeExpr.induct with
  | mk ns name args isConst sign isBasic ih =>
    have hargs := length_angled_le ih
    have hsign := length_wrap_le sign (pathText ns name ++ angled (args.map cpp))
    rw [cpp_mk, length_constant, text, texts_eq_map]
    simp only [String.length_append] at hsign ⊢
    omega

end TypeExpr

theorem Typename.length_text_le (t : Typename) : t.text.length ≤ t.cpp.length := by
  have hcpp : t.cpp = t.qualifiedName ++ angled (t.args.map TypeExpr.cpp) := rfl
  have hargs : (angled (t.args.map TypeExpr.text)).length ≤
      (angled (t.args.map TypeExpr.cpp)).length :=
    TypeExpr.length_angled_le fun a _ => a.length_text_le
  rw [text, hcpp, String.length_append, String.length_append]
  omega

namespace TypeExpr

/-- In C++ a type use is no shorter than its canonical form, and longer if it has qualifiers. -/
theorem length_canonical_le (t : TypeExpr) :
    t.canonical.length ≤ t.cpp.length ∧
      (t.canonical.length = t.cpp.length → t.isConst = false ∧ t.indirection = none) := by
  have hname := t.typename.length_text_le
  have hsign := length_wrap_le t.indirection t.typename.cpp
  have hlength : t.cpp.length = (if t.isConst then "const " else "").length +
      (Indirection.wrap t.indirection t.typename.cpp).length := by
    rw [cpp_eq, length_constant]
  have hconst : "const ".length = 6 := by decide
  rw [canonical]
  refine ⟨by omega, fun h => ⟨?_, ?_⟩⟩
  · by_contra hc
    rw [if_pos (by simpa using hc), hconst] at hlength
    omega
  · by_contra hs
    have hpos := length_indirectionText_pos hs
    omega

/-- The canonical form of a type use is its C++ form exactly if it has no qualifiers and there is no
pointer among its arguments. -/
theorem canonical_eq_cpp_iff {t : TypeExpr} :
    t.canonical = t.cpp ↔
      t.isConst = false ∧ t.indirection = none ∧ ∀ a ∈ t.args, a.PointerFree := by
  have hplain : t.isConst = false → t.indirection = none → t.cpp = t.typename.cpp := by
    intro hconst hsign
    rw [cpp_eq, hconst, hsign]
    rfl
  constructor
  · intro h
    obtain ⟨hconst, hsign⟩ := t.length_canonical_le.2 (congrArg String.length h)
    rw [hplain hconst hsign, canonical] at h
    exact ⟨hconst, hsign, Typename.text_eq_cpp_iff.1 h⟩
  · rintro ⟨hconst, hsign, hargs⟩
    rw [hplain hconst hsign, canonical]
    exact Typename.text_eq_cpp_iff.2 hargs

/-- The same for several type uses that are joined. -/
theorem intercalate_canonical_eq_iff {sep : String} {ts : List TypeExpr} :
    sep.intercalate (ts.map canonical) = sep.intercalate (ts.map cpp) ↔
      ∀ t ∈ ts, t.isConst = false ∧ t.indirection = none ∧ ∀ a ∈ t.args, a.PointerFree := by
  have hlength : List.Forall₂ (fun x y => x.length ≤ y.length) (ts.map canonical)
      (ts.map cpp) := by
    rw [List.forall₂_map_left_iff, List.forall₂_map_right_iff, List.forall₂_same]
    exact fun t _ => t.length_canonical_le.1
  have hjoin : sep.intercalate (ts.map canonical) = sep.intercalate (ts.map cpp) ↔
      ts.map canonical = ts.map cpp :=
    ⟨eq_of_intercalate_eq hlength, congrArg _⟩
  rw [hjoin, List.map_inj_left]
  exact forall₂_congr fun t _ => canonical_eq_cpp_iff

end TypeExpr

/-! ## Names of instances -/

theorem ForwardDecl.cpp_of_instantiate {d y : ForwardDecl} {bindings : List TypeExpr}
    {newName : Option String} (hne : bindings ≠ [])
    (h : d.instantiate bindings newName = .ok y) :
    y.cpp = pathText (d.namespaces ++ d.typename.namespaces) d.typename.name ++ "<" ++
      ",".intercalate (bindings.map TypeExpr.canonical) ++ ">" := by
  obtain ⟨parent, -, h⟩ := except_bind_ok h
  cases h
  have hbindings : bindings.isEmpty = false := by simpa using hne
  simp [cpp, hbindings]

/-- The call name of an instance in a path. -/
theorem pathText_callName (path : List String) (name : String) (bindings : List TypeExpr) :
    pathText path (Provenance.callName ⟨name, bindings⟩) =
      pathText path name ++ "<" ++ ",".intercalate (bindings.map TypeExpr.cpp) ++ ">" := by
  rw [Provenance.callName, pathText_append, pathText_append, pathText_append]

theorem ClassDecl.cppName_of_provenance {c : ClassDecl} {name : String} {bindings : List TypeExpr}
    (hne : bindings ≠ []) (hpath : c.namespaces.head? ≠ some "")
    (h : c.provenance = some ⟨name, bindings⟩) :
    c.cppName = pathText c.namespaces name ++ "<" ++
      ", ".intercalate (bindings.map TypeExpr.cpp) ++ ">" := by
  have hmap : (bindings.map TypeExpr.cpp).isEmpty = false := by simpa using hne
  have htype : c.cppType = ⟨c.namespaces, name, bindings⟩ := by
    rw [cppType, h]
    exact Typename.ofPath_of_head hpath name bindings
  have hcpp : c.cppName = pathText c.namespaces name ++ angled (bindings.map TypeExpr.cpp) := by
    rw [cppName, htype]
    rfl
  rw [hcpp, angled, hmap, if_neg (by simp), ← String.append_assoc, ← String.append_assoc]

/-- **Instances of a forward declaration.** In the C++ name of an instance stand the canonical forms
of the bindings. In the call name and in the name of a class with the same bindings stand their C++
forms, which are the same exactly if the bindings have no qualifiers and there is no pointer among
their arguments. Without a header any types can be bound. -/
theorem ForwardDecl.cpp_instance_iff {bindings : List TypeExpr} (hne : bindings ≠ [])
    (d : ForwardDecl) (newName : Option String) :
    let path := d.namespaces ++ d.typename.namespaces
    let name := d.typename.name
    (d.template = none → ∃ y, d.instantiate bindings newName = .ok y) ∧
    (∀ y, d.instantiate bindings newName = .ok y →
      y.cpp = pathText path name ++ "<" ++
        ",".intercalate (bindings.map TypeExpr.canonical) ++ ">" ∧
      (y.cpp = pathText path (Provenance.callName ⟨name, bindings⟩) ↔
        ∀ b ∈ bindings,
          b.isConst = false ∧ b.indirection = none ∧ ∀ a ∈ b.args, a.PointerFree)) ∧
    ∀ c : ClassDecl, c.namespaces = path → path.head? ≠ some "" →
      c.provenance = some ⟨name, bindings⟩ →
      c.cppName = pathText path name ++ "<" ++
        ", ".intercalate (bindings.map TypeExpr.cpp) ++ ">" := by
  intro path name
  refine ⟨?_, ?_, ?_⟩
  · intro hplain
    have hparent : d.instanceParent d.span bindings = .ok d.parent := by
      rw [instanceParent, hplain]
    rw [instantiate, instantiateAt, hparent]
    exact ⟨_, rfl⟩
  · intro y hy
    have hcpp := cpp_of_instantiate hne hy
    refine ⟨hcpp, ?_⟩
    rw [hcpp, pathText_callName, String.append_left_inj, String.append_right_inj,
      TypeExpr.intercalate_canonical_eq_iff]
  · intro c hc hpath hprovenance
    rw [← hc] at hpath ⊢
    exact ClassDecl.cppName_of_provenance hne hpath hprovenance

/-- A class that is only named, in a namespace. -/
def bareFoo : ForwardDecl := ⟨"Foo", .simple "Foo", none, false, none, ["ns"], default, none⟩

/-- References among the arguments of a binding make no difference. A pointer that is bound is lost
in the one name, and stays in the other. -/
theorem bareFoo_names :
    (∃ y, bareFoo.instantiate [.mk [] "Row" [.mk [] "A" [] true (some .ref) false] false none false,
        .named "double"] none = .ok y ∧ y.cpp = "ns::Foo<Row<const A&>,double>" ∧
      y.cpp = pathText ["ns"] (Provenance.callName
        ⟨"Foo", [.mk [] "Row" [.mk [] "A" [] true (some .ref) false] false none false,
          .named "double"]⟩)) ∧
    ∃ y, bareFoo.instantiate [.mk [] "A" [] false (some .shared) false] none = .ok y ∧
      y.cpp = "ns::Foo<A>" ∧
      y.cpp ≠ pathText ["ns"] (Provenance.callName
        ⟨"Foo", [.mk [] "A" [] false (some .shared) false]⟩) ∧
      pathText ["ns"] (Provenance.callName ⟨"Foo", [.mk [] "A" [] false (some .shared) false]⟩) =
        "ns::Foo<std::shared_ptr<A>>" := by
  obtain ⟨hrow, hrows, -⟩ := ForwardDecl.cpp_instance_iff (List.cons_ne_nil _ _) bareFoo none
  obtain ⟨hptr, hptrs, -⟩ := ForwardDecl.cpp_instance_iff (List.cons_ne_nil _ _) bareFoo none
  obtain ⟨y, hy⟩ := hrow rfl
  obtain ⟨z, hz⟩ := hptr rfl
  obtain ⟨hname, hcall⟩ := hrows y hy
  obtain ⟨hname', hcall'⟩ := hptrs z hz
  refine ⟨⟨y, hy, hname.trans (by decide +kernel), hcall.2 (by decide +kernel)⟩,
    z, hz, hname'.trans (by decide +kernel), fun he => ?_, by decide +kernel⟩
  have hbound := hcall'.1 he
  revert hbound
  decide +kernel

/-- So the name of an instance is not always its call name. -/
theorem not_forall_cpp_instance : ¬ ∀ (d y : ForwardDecl) (bindings : List TypeExpr),
    d.typename = .simple d.name → bindings ≠ [] → d.instantiate bindings none = .ok y →
    y.cpp = pathText d.namespaces (Provenance.callName ⟨d.name, bindings⟩) := by
  intro h
  have hname := h bareFoo ⟨"FooA", .simple "Foo", none, false, none, ["ns"], default,
    some ⟨"Foo", [.mk [] "A" [] false (some .shared) false]⟩⟩
    [.mk [] "A" [] false (some .shared) false] rfl (List.cons_ne_nil _ _) (by rfl)
  revert hname
  decide +kernel

end TemplateIdl
