import TemplateIdl.Expand.Naming
import TemplateIdl.Proofs.Decl.WellFormed
import TemplateIdl.Proofs.TypeExpr.RoundTrip

/-!
# Descriptions — what they tell of an instance

* `TypeExpr.qualifiers`, what a type use adds to the name in it;
* `TypeExpr.eq_iff`, a type use that can be written is its name with its qualifiers;
* `describe_injective`, a description tells the generic name and the names in the bindings, but
  not the qualifiers around them.
-/

namespace TemplateIdl

/-! ## Names and qualifiers -/

namespace TypeExpr

/-- What stands around the name in a type use. -/
def qualifiers (t : TypeExpr) : Bool × Option Indirection := (t.isConst, t.indirection)

/-- Whether the type is built in follows from the name. -/
theorem WellFormed.ofTypename_typename {inArgs : Bool} {t : TypeExpr} (h : t.WellFormed inArgs) :
    ofTypename t.typename t.isConst t.indirection = t := by
  cases t
  exact Parse.ofTypename_eq h

/-- A type use stays one that can be written with other qualifiers, and among arguments. -/
theorem WellFormed.typename {inArgs : Bool} {t : TypeExpr} (h : t.WellFormed inArgs) :
    t.typename.WellFormed true := by
  cases h with
  | basic hn => exact .basic hn
  | named hns hn has => exact .named hns hn has
  | integer hn => exact .integer hn

/-- Two type uses that can be written are the same if their names and their qualifiers are. -/
theorem eq_iff {inArgs : Bool} {t u : TypeExpr} (ht : t.WellFormed inArgs)
    (hu : u.WellFormed inArgs) :
    t = u ↔ t.typename = u.typename ∧ t.qualifiers = u.qualifiers := by
  constructor
  · intro h
    rw [h]
    exact ⟨rfl, rfl⟩
  · intro h
    obtain ⟨hconst, hsign⟩ := Prod.mk.inj h.2
    rw [← ht.ofTypename_typename, ← hu.ofTypename_typename, h.1, hconst, hsign]

theorem map_eq_iff {ts us : List TypeExpr} (ht : ∀ t ∈ ts, t.WellFormed true)
    (hu : ∀ u ∈ us, u.WellFormed true) :
    ts = us ↔ ts.map typename = us.map typename ∧ ts.map qualifiers = us.map qualifiers := by
  induction ts generalizing us with
  | nil => simp [eq_comm]
  | cons t ts ih =>
    cases us with
    | nil => simp
    | cons u us =>
      rw [List.forall_mem_cons] at ht hu
      simp only [List.cons.injEq, List.map_cons, eq_iff ht.1 hu.1, ih ht.2 hu.2]
      constructor
      · intro h
        exact ⟨⟨h.1.1, h.2.1⟩, h.1.2, h.2.2⟩
      · intro h
        exact ⟨⟨h.1.1, h.2.1⟩, h.1.2, h.2.2⟩

/-! ## Texts of arguments -/

/-- Lists of arguments with one text are the same. The text is read behind some name, since only
whole type uses are read. -/
theorem eq_of_angled_eq {ts us : List TypeExpr} (ht : ∀ t ∈ ts, t.WellFormed true)
    (hu : ∀ u ∈ us, u.WellFormed true) (h : angled (ts.map text) = angled (us.map text)) :
    ts = us := by
  have hread : ∀ args : List TypeExpr, (∀ a ∈ args, a.WellFormed true) →
      parse ("T" ++ angled (args.map text)) = .ok (.mk [] "T" args false none false) := by
    intro args hargs
    have hparse := parse_text (t := .mk [] "T" args false none false)
      (.named (by simp) (by decide) hargs)
    simpa [text, pathText, indirectionText] using hparse
  have hsame := hread ts ht
  rw [h, hread us hu] at hsame
  cases hsame
  rfl

end TypeExpr

/-- The canonical form is the text without qualifiers. -/
theorem Typename.text_ofTypename (t : Typename) :
    (TypeExpr.ofTypename t false none).text = t.text := by
  rw [TypeExpr.text_eq]
  simp [TypeExpr.canonical, TypeExpr.ofTypename, TypeExpr.ofParts, TypeExpr.typename,
    TypeExpr.isConst, TypeExpr.indirection, TypeExpr.namespaces, TypeExpr.name, TypeExpr.args,
    indirectionText]

/-- Lists of bindings with one canonical form have the same names in them. -/
theorem TypeExpr.typenames_eq_of_angled_eq {ts us : List TypeExpr}
    (ht : ∀ t ∈ ts, t.WellFormed true) (hu : ∀ u ∈ us, u.WellFormed true)
    (h : angled (ts.map canonical) = angled (us.map canonical)) :
    ts.map typename = us.map typename := by
  have hcanonical : ∀ args : List TypeExpr,
      args.map canonical = (args.map fun t => ofTypename t.typename false none).map text := by
    intro args
    rw [List.map_map]
    refine List.map_congr_left ?_
    intro t _
    exact t.typename.text_ofTypename.symm
  have hwf : ∀ args : List TypeExpr, (∀ a ∈ args, a.WellFormed true) →
      ∀ a ∈ args.map fun t => ofTypename t.typename false none, a.WellFormed true := by
    intro args hargs a ha
    obtain ⟨t, hmem, rfl⟩ := List.mem_map.1 ha
    exact (hargs t hmem).typename false none
  rw [hcanonical ts, hcanonical us] at h
  have hsame := congrArg (List.map typename) (eq_of_angled_eq (hwf ts ht) (hwf us hu) h)
  rw [List.map_map, List.map_map] at hsame
  exact hsame

/-! ## Descriptions -/

theorem IsClassName.no_bracket {name : String} (h : IsClassName name) :
    ∀ d ∈ name.toList, (d != '<') = true := by
  rcases h with h | h
  · have hall : ∀ n ∈ basicTypeNames, n.toList.all (· != '<') = true := by decide
    exact List.all_eq_true.1 (hall name h)
  · intro d hd
    simp only [isIdentifier, Bool.and_eq_true, List.all_eq_true] at h
    rw [bne_iff_ne]
    intro he
    have hword := h.1.2 d hd
    rw [he] at hword
    exact absurd hword (by decide)

theorem head?_angled (texts : List String) :
    ∀ d ∈ (angled texts).toList.head?, (d != '<') = false := by
  intro d hd
  unfold angled at hd
  split at hd
  · cases hd
  · have hbracket : d = '<' := by simpa [eq_comm] using hd
    rw [hbracket]
    rfl

/-- The generic name in a description ends in front of the bracket. -/
theorem describe_cut {name : String} (h : IsClassName name) (bindings : List TypeExpr) :
    (describe name bindings).toList.takeWhile (· != '<') = name.toList ∧
      (describe name bindings).toList.dropWhile (· != '<') =
        (angled (bindings.map TypeExpr.canonical)).toList := by
  rw [describe, String.toList_append]
  exact Bite.takeWhile_eq_of h.no_bracket (head?_angled _)

/-- Instances of one description have one generic name, and their bindings differ at most in
their qualifiers. -/
theorem describe_injective {x y : String} {ts us : List TypeExpr} (hx : IsClassName x)
    (hy : IsClassName y) (ht : ∀ t ∈ ts, t.WellFormed true) (hu : ∀ u ∈ us, u.WellFormed true)
    (h : describe x ts = describe y us) :
    x = y ∧ ts.map TypeExpr.typename = us.map TypeExpr.typename := by
  have hcut := describe_cut hx ts
  rw [h, (describe_cut hy us).1, (describe_cut hy us).2] at hcut
  refine ⟨String.toList_inj.1 hcut.1.symm, ?_⟩
  exact TypeExpr.typenames_eq_of_angled_eq ht hu (String.toList_inj.1 hcut.2.symm)

end TemplateIdl
