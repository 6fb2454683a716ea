import TemplateIdl.Proofs.Expand.Again

/-!
# Splice — parameters and `This` as segments of a path

What takes the place of a segment is a name with namespaces and template arguments of its own, so
several segments come into the path at once. Joined by `::` they read as the canonical form of that
name.

* `pathText_eq_intercalate` and `intercalate_pathOf`, paths as joined segments, and
  `intercalate_splice`, segments within others;
* `Substitution.scoped?_eq_of_find?`, the parameter that is replaced in a path and where it is cut;
* `Substitution.canonical_segment`, the name behind a parameter in a path;
* `Substitution.intercalate_inner_iff`, the path behind `This`, which is the one where `This` is
  replaced in its place exactly if `This` comes first.
-/

namespace TemplateIdl

/-! ## Joined paths -/

theorem pathText_eq_intercalate (ns : List String) (name : String) :
    pathText ns name = "::".intercalate (ns ++ [name]) := by
  induction ns with
  | nil => exact String.intercalate_singleton.symm
  | cons n ns ih =>
    have hne : ns ++ [name] ≠ [] := by simp
    rw [List.cons_append, String.intercalate_cons_of_ne_nil hne, ← ih]
    rfl

theorem pathText_append (ns : List String) (name s : String) :
    pathText ns (name ++ s) = pathText ns name ++ s := by
  induction ns with
  | nil => rfl
  | cons n ns ih =>
    rw [pathText, ih, pathText]
    exact String.append_assoc.symm

/-- Joined segments are one segment for those around them. -/
theorem intercalate_splice {ys : List String} (hys : ys ≠ []) (sep : String)
    (xs zs : List String) :
    sep.intercalate (xs ++ ys ++ zs) = sep.intercalate (xs ++ sep.intercalate ys :: zs) := by
  have hback : sep.intercalate (ys ++ zs) = sep.intercalate (sep.intercalate ys :: zs) := by
    by_cases hzs : zs = []
    · rw [hzs, List.append_nil, String.intercalate_singleton]
    · rw [String.intercalate_append_of_ne_nil hys hzs, String.intercalate_cons_of_ne_nil hzs]
  rw [List.append_assoc]
  by_cases hxs : xs = []
  · rw [hxs, List.nil_append, List.nil_append]
    exact hback
  · have hne : ys ++ zs ≠ [] := List.append_ne_nil_of_left_ne_nil hys zs
    rw [String.intercalate_append_of_ne_nil hxs hne,
      String.intercalate_append_of_ne_nil hxs (List.cons_ne_nil _ _), hback]

namespace Substitution

/-! ## The segments of a name -/

/-- The segments of a name make up its canonical form. -/
theorem intercalate_pathOf (t : Typename) : "::".intercalate (pathOf t) = t.text := by
  rw [pathOf, ← pathText_eq_intercalate, Typename.templatedName, pathText_append]
  rfl

/-- A name in a path takes the place of a segment. -/
theorem intercalate_pathOf_splice (before after : List String) (t : Typename) :
    "::".intercalate (before ++ pathOf t ++ after) =
      "::".intercalate (before ++ t.text :: after) := by
  rw [intercalate_splice (pathOf_ne_nil t), intercalate_pathOf]

/-- What is written has no empty segments. -/
theorem not_mem_pathOf_of_wellFormed {inArgs : Bool} {t : TypeExpr}
    (h : t.WellFormed inArgs) : "" ∉ pathOf t.typename := by
  refine h.induct_mk (motive := fun t => "" ∉ pathOf t.typename) ?_
  intro ns name as c i b hns hname _ _
  refine not_mem_pathOf ?_ ?_
  · intro hmem
    have hid := hns "" hmem
    revert hid
    decide
  · show name ≠ ""
    rintro rfl
    obtain ⟨c, l, hl, -⟩ := hname.head
    cases hl

variable {σ : Substitution} {t t' : TypeExpr} {p : String} {bound : TypeExpr} {cls : Typename}

/-! ## Where a path is cut -/

theorem splitAtFirst?_of_mem {x : String} {xs : List String} (h : x ∈ xs) :
    splitAtFirst? x xs = some (xs.take (xs.idxOf x), xs.drop (xs.idxOf x + 1)) := by
  induction xs with
  | nil => cases h
  | cons y ys ih =>
    unfold splitAtFirst?
    by_cases hy : y = x
    · rw [if_pos hy, hy, List.idxOf_cons_self]
      rfl
    · have hmem : x ∈ ys := (List.mem_cons.1 h).resolve_left (Ne.symm hy)
      rw [if_neg hy, ih hmem, List.idxOf_cons_ne _ hy]
      rfl

/-- The first parameter in declared order that is in the path is replaced at its first place. -/
theorem scoped?_eq_of_find? {path : List String}
    (h : σ.params.find? (fun q => q.1 ∈ path) = some (p, bound)) :
    σ.scoped? path =
      some (path.take (path.idxOf p), bound, path.drop (path.idxOf p + 1)) := by
  unfold scoped?
  revert h
  induction σ.params with
  | nil =>
    intro h
    cases h
  | cons q qs ih =>
    intro h
    by_cases hq : q.1 ∈ path
    · rw [List.find?_cons_of_pos (by simpa using hq)] at h
      cases h
      rw [List.findSome?_cons, splitAtFirst?_of_mem hq]
      rfl
    · rw [List.find?_cons_of_neg (by simpa using hq)] at h
      rw [List.findSome?_cons, splitAtFirst?_eq_none.2 hq]
      exact ih h

/-! ## A parameter in a path -/

/-- Some parameter that is in the path is the first one in declared order. -/
theorem exists_find?_of_mem {path : List String} (h : ∃ n ∈ path, n ∈ σ.names) :
    ∃ p bound, σ.params.find? (fun q => q.1 ∈ path) = some (p, bound) := by
  obtain ⟨n, hn, hmem⟩ := h
  obtain ⟨q, hq, rfl⟩ := List.mem_map.1 hmem
  have hsome : (σ.params.find? fun q => q.1 ∈ path).isSome := by
    rw [List.find?_isSome]
    exact ⟨q, hq, decide_eq_true hn⟩
  obtain ⟨⟨p, bound⟩, hfound⟩ := Option.isSome_iff_exists.1 hsome
  exact ⟨p, bound, hfound⟩

/-- **What stands behind a parameter in a path.** Of the parameters in a path without empty segments
the first one in declared order is replaced where it stands first. The name that is bound to it
takes its place, with all its namespaces and arguments, the segments around it stay, and so do the
qualifiers. The arguments of the type use are lost, and it is not meant as that of a built-in
type. -/
theorem canonical_segment (hns : "" ∉ t.namespaces)
    (hσ : ∀ q ∈ σ.params, q.2.WellFormed false) (hmem : ∃ n ∈ t.namespaces, n ∈ σ.names)
    (h : σ.subst? t = some t') :
    ∃ p bound, σ.params.find? (fun q => q.1 ∈ t.namespaces) = some (p, bound) ∧
      t'.canonical = "::".intercalate (t.namespaces.take (t.namespaces.idxOf p) ++
        bound.canonical :: (t.namespaces.drop (t.namespaces.idxOf p + 1) ++ [t.name])) ∧
      t'.args = [] ∧ t'.isConst = t.isConst ∧ t'.indirection = t.indirection ∧
      t'.isBasic = false := by
  obtain ⟨p, bound, hfound⟩ := exists_find?_of_mem hmem
  refine ⟨p, bound, hfound, ?_⟩
  set before := t.namespaces.take (t.namespaces.idxOf p) with hbefore
  set after := t.namespaces.drop (t.namespaces.idxOf p + 1) with hafter
  have hpath : (before ++ pathOf bound.typename ++ after).head? ≠ some "" := by
    intro hhead
    have hempty := List.mem_of_head? hhead
    rw [List.mem_append, List.mem_append] at hempty
    rcases hempty with (hempty | hempty) | hempty
    · exact hns (List.mem_of_mem_take hempty)
    · have hbound := hσ _ (List.mem_of_find?_eq_some hfound)
      exact not_mem_pathOf_of_wellFormed hbound hempty
    · exact hns (List.mem_of_mem_drop hempty)
  obtain ⟨args, -, hreplace⟩ := subst?_eq_some.1 h
  rw [replace?_of_segment (scoped?_eq_of_find? hfound), Typename.ofPath_of_head hpath] at hreplace
  cases hreplace
  refine ⟨?_, rfl, rfl, rfl, rfl⟩
  calc pathText (before ++ pathOf bound.typename ++ after) t.name ++ ""
      = "::".intercalate (before ++ pathOf bound.typename ++ (after ++ [t.name])) := by
        rw [String.append_empty, pathText_eq_intercalate, List.append_assoc]
    _ = "::".intercalate (before ++ bound.canonical :: (after ++ [t.name])) :=
        intercalate_pathOf_splice _ _ _

/-- A box of grids of pointers. -/
def box : TypeExpr :=
  .mk ["b"] "Box" [.mk [] "Grid" [.mk [] "A" [] false (some .shared) false] true none false,
    .named "int"] false none false

/-- Two parameters, of which the first one is a box. -/
def boxed : Substitution := ⟨[("U", box), ("T", .named "V")], none⟩

/-- Of two parameters in a path the one that is declared first is replaced. -/
theorem boxed_canonical : ∃ t', boxed.subst?
      (.mk ["traits", "T", "U", "Inner"] "Key" [.named "T"] true (some .ref) false) = some t' ∧
    t'.canonical = "traits::T::b::Box<const Grid<A*>, int>::Inner::Key" ∧ t'.args = [] ∧
    t'.isConst = true ∧ t'.indirection = some .ref := by
  have hbox : box.WellFormed false := by
    have hread : TypeExpr.parse "b::Box<const Grid<A*>, int>" = .ok box := by decide +kernel
    exact TypeExpr.wellFormed_of_parse hread
  have hname : (TypeExpr.named "V").WellFormed false := by
    have hread : TypeExpr.parse "V" = .ok (.named "V") := by decide +kernel
    exact TypeExpr.wellFormed_of_parse hread
  have hbound : ∀ q ∈ boxed.params, q.2.WellFormed false := by
    intro q hq
    rcases List.mem_cons.1 hq with rfl | hq
    · exact hbox
    · rw [List.mem_singleton.1 hq]
      exact hname
  obtain ⟨t', ht'⟩ := Option.isSome_iff_exists.1
    (show (boxed.subst? (.mk ["traits", "T", "U", "Inner"] "Key" [.named "T"] true (some .ref)
      false)).isSome by decide +kernel)
  obtain ⟨p, bound, hfound, hcanonical, hargs, hconst, hsign, -⟩ :=
    canonical_segment (by decide) hbound ⟨"T", by decide, by decide⟩ ht'
  cases hfound
  exact ⟨t', ht', hcanonical.trans (by decide +kernel), hargs, hconst, hsign⟩

/-! ## The enclosing class in a path -/

/-- An empty segment in front is lost, and with it the `::` behind it. -/
theorem length_intercalate_ofPath (path : List String) (name : String) (args : List TypeExpr) :
    ("::".intercalate (Typename.ofPath path name args).namespaces).length ≤
        ("::".intercalate path).length ∧
      ("::".intercalate (Typename.ofPath path name args).namespaces = "::".intercalate path ↔
        path.head? ≠ some "" ∨ path = [""]) := by
  by_cases hhead : path.head? = some ""
  · obtain ⟨rest, rfl⟩ := List.head?_eq_some_iff.1 hhead
    have hrest : (Typename.ofPath ("" :: rest) name args).namespaces = rest := rfl
    rw [hrest]
    by_cases hnil : rest = []
    · rw [hnil]
      exact ⟨le_rfl, iff_of_true rfl (.inr rfl)⟩
    · have hlen : ("::".intercalate ("" :: rest)).length = ("::".intercalate rest).length + 2 := by
        rw [String.intercalate_cons_of_ne_nil hnil, String.empty_append, String.length_append,
          Nat.add_comm]
        rfl
      refine ⟨by omega, iff_of_false ?_ (by simpa using hnil)⟩
      intro he
      rw [← he] at hlen
      omega
  · rw [Typename.ofPath_of_head hhead]
    exact ⟨le_rfl, iff_of_true rfl (.inl hhead)⟩

/-- **What stands behind `This` in a path.** Where no parameter is in the path, the name of the
class takes the place of the first `This`, and the arguments are replaced. But what stands before
that `This` is lost, and so is a `::` in front of the class: the path is the one in which `This` is
replaced in its place only if there is nothing to lose. -/
theorem intercalate_inner_iff (hthis : σ.this = some cls) (hp : ∀ n ∈ t.namespaces, n ∉ σ.names)
    (hmem : thisName ∈ t.namespaces) :
    ∃ t', σ.subst? t = some t' ∧ t'.name = t.name ∧
      List.Forall₂ (fun a a' => σ.subst? a = some a') t.args t'.args ∧
      t'.isConst = t.isConst ∧ t'.indirection = t.indirection ∧ t'.isBasic = false ∧
      ((pathOf cls).head? ≠ some "" →
        "::".intercalate t'.namespaces =
          "::".intercalate (cls.text :: t.namespaces.drop (t.namespaces.idxOf thisName + 1))) ∧
      ("::".intercalate t'.namespaces =
          "::".intercalate (t.namespaces.take (t.namespaces.idxOf thisName) ++
            cls.text :: t.namespaces.drop (t.namespaces.idxOf thisName + 1)) ↔
        t.namespaces.idxOf thisName = 0 ∧
          ((pathOf cls).head? ≠ some "" ∨
            pathOf cls ++ t.namespaces.drop (t.namespaces.idxOf thisName + 1) = [""])) := by
  obtain ⟨args, hargs⟩ := exists_forall₂ fun a (_ : a ∈ t.args) =>
    exists_subst? (by rw [hthis]; rfl) a
  have hreplace := replace?_of_inner (scoped?_eq_none.2 hp) (splitAtFirst?_of_mem hmem) args
  rw [hthis, Option.map_some] at hreplace
  refine ⟨_, subst?_eq_some.2 ⟨args, hargs, hreplace⟩, Typename.ofPath_name _ _ _, ?_, rfl, rfl,
    rfl, ?_⟩
  · show List.Forall₂ _ t.args (Typename.ofPath _ t.name args).args
    rw [Typename.ofPath_args]
    exact hargs
  set i := t.namespaces.idxOf thisName with hi
  set after := t.namespaces.drop (i + 1) with hafter
  obtain ⟨hle, heq⟩ := length_intercalate_ofPath (pathOf cls ++ after) t.name args
  have hhead : (pathOf cls ++ after).head? = (pathOf cls).head? :=
    List.head?_append_of_ne_nil _ (pathOf_ne_nil cls)
  have hplain : "::".intercalate (pathOf cls ++ after) = "::".intercalate (cls.text :: after) :=
    intercalate_pathOf_splice [] after cls
  rw [hhead, hplain] at heq
  rw [hplain] at hle
  have hnamespaces : (t.rename (.ofPath (pathOf cls ++ after) t.name args) false).namespaces =
      (Typename.ofPath (pathOf cls ++ after) t.name args).namespaces := rfl
  rw [hnamespaces]
  refine ⟨fun h => heq.2 (.inl h), ?_⟩
  by_cases hzero : i = 0
  · rw [hzero, List.take_zero, List.nil_append, heq]
    exact (and_iff_right rfl).symm
  · -- the segments in front make the path longer
    have hlt : i < t.namespaces.length := List.idxOf_lt_length_of_mem hmem
    have hbefore : t.namespaces.take i ≠ [] := by
      intro hnil
      have hlen := congrArg List.length hnil
      rw [List.length_take_of_le hlt.le] at hlen
      exact hzero hlen
    rw [String.intercalate_append_of_ne_nil hbefore (List.cons_ne_nil _ _)]
    refine iff_of_false ?_ (fun h => hzero h.1)
    intro he
    have hlen := congrArg String.length he
    rw [String.length_append, String.length_append] at hlen
    have htwo : "::".length = 2 := rfl
    omega

/-- In the class `ns::Fun<double>`. -/
def inFun : Substitution := ⟨[], some ⟨["ns"], "Fun", [.named "double"]⟩⟩

/-- Where `This` comes first, the class takes its place. -/
theorem inFun_inner : ∃ t', inFun.subst? (.mk ["This", "Inner"] "Key" [.named "This"] false none
      false) = some t' ∧
    "::".intercalate t'.namespaces = "ns::Fun<double>::Inner" ∧ t'.name = "Key" := by
  obtain ⟨t', ht', hname, -, -, -, -, -, hpath⟩ :=
    intercalate_inner_iff (show inFun.this = some ⟨["ns"], "Fun", [.named "double"]⟩ from rfl)
      (show ∀ n ∈ (TypeExpr.mk ["This", "Inner"] "Key" [.named "This"] false none false).namespaces,
        n ∉ inFun.names by decide) (by decide)
  refine ⟨t', ht', ?_, hname⟩
  exact (hpath.2 ⟨by decide, .inl (by decide)⟩).trans (by decide +kernel)

/-- What stands before `This` in a path is lost: in the class `Fun`, `ns::This::Inner` becomes
`Fun::Inner`. -/
theorem not_forall_inner : ¬ ∀ (σ : Substitution) (cls : Typename) (t t' : TypeExpr),
    σ.this = some cls → (∀ n ∈ t.namespaces, n ∉ σ.names) → thisName ∈ t.namespaces →
    σ.subst? t = some t' →
    "::".intercalate t'.namespaces =
      "::".intercalate (t.namespaces.take (t.namespaces.idxOf thisName) ++
        cls.text :: t.namespaces.drop (t.namespaces.idxOf thisName + 1)) := by
  intro h
  have hpath := h ⟨[], some (.simple "Fun")⟩ (.simple "Fun")
    (.mk ["ns", "This"] "Inner" [] false none false) (.mk ["Fun"] "Inner" [] false none false)
    rfl (by decide) (by decide) (by decide +kernel)
  revert hpath
  decide +kernel

end Substitution

end TemplateIdl
