import TemplateIdl.Proofs.Decl.Names
import TemplateIdl.Proofs.Expand.NewName

/-!
# Identifiers — which generated names are words

A generated name is put together from the generic name and the names of the types that are bound.
All of these are words but one, the built-in type whose name has two of them.

* `isWord`, the texts that words of the language have;
* `isWord_generatedName_iff`, a generated name is a word if nothing in it has two words;
* `IsGenerated` and `IsOneWord`, what the record of an instance says about its name;
* `ClassDecl.Made.isWord_iff` and its neighbours, the names of instances and of their members;
* `Interface.isWord_names_iff`, all of them in an expanded file.
-/

namespace TemplateIdl

/-! ## Words -/

/-- Whether a text is a word: letters, digits and underscores that begin with no digit. -/
def isWord (s : String) : Bool :=
  s.toList.head?.any Bite.isWordStart && s.toList.all Bite.isWordChar

theorem isWord_of_isIdentifier {s : String} (h : isIdentifier s = true) : isWord s = true := by
  rw [isIdentifier, Bool.and_eq_true] at h
  exact h.1

/-- The one name of a type that has two words. -/
def twoWords : String := "unsigned char"

theorem IsClassName.isWord_iff {name : String} (h : IsClassName name) :
    isWord name = true ↔ name ≠ twoWords := by
  rcases h with h | h
  · have hall : ∀ n ∈ basicTypeNames, (isWord n = true ↔ n ≠ twoWords) := by decide
    exact hall name h
  · have hne : name ≠ twoWords := by
      rintro rfl
      cases h
    exact iff_of_true (isWord_of_isIdentifier h) hne

/-- The capital of a character that words begin with is another one. -/
theorem uppercase_of_isWordStart {c : Char} (h : Bite.isWordStart c = true) :
    ∃ d, uppercase c = [d] ∧ Bite.isWordChar d = true := by
  have hall : ∀ n < 128, Bite.isWordStart (Char.ofNat n) = true →
      (uppercase (Char.ofNat n)).length = 1 ∧
        (uppercase (Char.ofNat n)).all Bite.isWordChar = true := by
    decide +kernel
  have hsmall : c.toNat < 128 := by
    rw [Bite.isWordStart, Bool.or_eq_true, Bite.isAlpha_iff, beq_iff_eq] at h
    rcases h with h | rfl
    · omega
    · decide
  obtain ⟨hlength, hword⟩ := hall c.toNat hsmall (by rwa [Char.ofNat_toNat])
  rw [Char.ofNat_toNat] at hlength hword
  obtain ⟨d, hd⟩ := List.length_eq_one_iff.1 hlength
  rw [hd] at hword
  exact ⟨d, hd, by simpa using hword⟩

/-- With a capital in front, the same names go on a word that are words. -/
theorem IsClassName.all_capitalized_iff {name : String} (h : IsClassName name) :
    (capitalized name).toList.all Bite.isWordChar = true ↔ name ≠ twoWords := by
  rcases h with h | h
  · have hall : ∀ n ∈ basicTypeNames,
        ((capitalized n).toList.all Bite.isWordChar = true ↔ n ≠ twoWords) := by
      decide +kernel
    exact hall name h
  · have hword := isWord_of_isIdentifier h
    have hne := (IsClassName.isWord_iff (.inr h)).1 hword
    refine iff_of_true ?_ hne
    obtain ⟨c, l, hl, hc⟩ := head_of_isIdentifier h
    obtain ⟨d, hd, hdword⟩ := uppercase_of_isWordStart hc
    rw [isWord, Bool.and_eq_true, hl, List.all_cons, Bool.and_eq_true] at hword
    simp [capitalized, hl, hd, hdword, hword.2.2]

theorem toList_generatedName (name : String) (bindings : List TypeExpr) :
    (generatedName name bindings).toList =
      name.toList ++ bindings.flatMap fun b => (capitalized b.name).toList := by
  rw [generatedName, String.toList_append, String.toList_join, List.flatMap_map]

/-- All characters of a generated name are those of its parts. -/
theorem all_generatedName (p : Char → Bool) (name : String) (bindings : List TypeExpr) :
    (generatedName name bindings).toList.all p = true ↔
      name.toList.all p = true ∧ ∀ b ∈ bindings, (capitalized b.name).toList.all p = true := by
  rw [toList_generatedName, List.all_append, Bool.and_eq_true, List.all_flatMap,
    List.all_eq_true (l := bindings)]

theorem generatedName_ne_empty {name : String} (h : name ≠ "") (bindings : List TypeExpr) :
    generatedName name bindings ≠ "" := by
  intro he
  exact h (String.append_eq_empty_iff.1 he).1

/-- Types listed in a header are called by an identifier or by the name of a built-in type, and then
a name is a word with them behind it exactly if it is one and none of them has two words. -/
theorem isWord_generatedName_iff {name : String} (hname : name ≠ "") {bindings : List TypeExpr}
    (hb : ∀ b ∈ bindings, IsClassName b.name) :
    isWord (generatedName name bindings) = true ↔
      isWord name = true ∧ ∀ b ∈ bindings, b.name ≠ twoWords := by
  have hhead : (generatedName name bindings).toList.head? = name.toList.head? := by
    rw [toList_generatedName, List.head?_append_of_ne_nil]
    simpa using hname
  have hrest : (∀ b ∈ bindings, (capitalized b.name).toList.all Bite.isWordChar = true) ↔
      ∀ b ∈ bindings, b.name ≠ twoWords :=
    forall₂_congr fun b hmem => (hb b hmem).all_capitalized_iff
  rw [isWord, isWord, hhead, Bool.and_eq_true, Bool.and_eq_true, all_generatedName, hrest,
    and_assoc]

/-- Whatever is bound, a name that two words have gone into is no word. -/
theorem ne_twoWords_of_isWord {name : String} {bindings : List TypeExpr}
    (h : isWord (generatedName name bindings) = true) :
    name ≠ twoWords ∧ ∀ b ∈ bindings, b.name ≠ twoWords := by
  rw [isWord, Bool.and_eq_true, all_generatedName] at h
  obtain ⟨-, hname, hrest⟩ := h
  constructor
  · rintro rfl
    exact absurd hname (by decide)
  · intro b hb he
    have hword := hrest b hb
    rw [he] at hword
    exact absurd hword (by decide +kernel)

/-! ## Records and names -/

/-- The name is the one that is generated from the record, if there is a record. -/
def IsGenerated (name : String) (provenance : Option Provenance) : Prop :=
  ∀ p ∈ provenance, name = generatedName p.genericName p.bindings

/-- The name of no recorded type has two words. -/
def IsOneWord (provenance : Option Provenance) : Prop :=
  ∀ b ∈ recordedBindings provenance, b.name ≠ twoWords

theorem isOneWord_provenanceOf {template : Option Template} {bindings : List TypeExpr}
    (hlength : (paramNames template).length = bindings.length) (name : String) :
    IsOneWord (provenanceOf template name bindings) ↔ ∀ b ∈ bindings, b.name ≠ twoWords := by
  cases template with
  | some t => exact Iff.rfl
  | none =>
    rw [List.eq_nil_of_length_eq_zero hlength.symm]
    exact Iff.rfl

/-- A header does not list integers. -/
theorem TypeExpr.WellFormed.isClassName {t : TypeExpr} (h : t.WellFormed false) :
    IsClassName t.name := by
  cases h with
  | basic hn => exact .inl hn
  | named _ hn _ => exact .inr hn

section Names

variable {template : Option Template} {name : String} {bindings : List TypeExpr}
  {newName : Option String}

/-- A name with the types behind it that a header lists. -/
theorem isWord_listed_iff (hname : name ≠ "") (ht : ∀ t ∈ template, t.WellFormed)
    (hb : bindings ∈ combinationsOf template) (generic : String) :
    isWord (generatedName name bindings) = true ↔
      isWord name = true ∧ IsOneWord (provenanceOf template generic bindings) := by
  rw [isOneWord_provenanceOf (length_of_mem_combinations hb)]
  refine isWord_generatedName_iff hname ?_
  intro b hmem
  obtain ⟨t, htemplate, q, hq, hchoice⟩ := exists_choices_of_mem_combinations hb b hmem
  exact (((ht t htemplate).params q hq).choices b hchoice).isClassName

theorem isWord_written_iff (hname : isIdentifier name = true) (ht : ∀ t ∈ template, t.WellFormed)
    (hb : bindings ∈ combinationsOf template) :
    isWord (generatedName name bindings) = true ↔
      IsOneWord (provenanceOf template name bindings) := by
  rw [isWord_listed_iff (IsClassName.ne_empty (.inr hname)) ht hb name]
  exact and_iff_right (isWord_of_isIdentifier hname)

/-- A generated name is a word unless two words have gone into it, and a new name always is. -/
theorem Requested.isWord_instanceName_iff (h : Requested template bindings newName)
    (ht : ∀ t ∈ template, t.WellFormed) (hname : IsClassName name)
    (hlength : (paramNames template).length = bindings.length) :
    isWord (instanceName name bindings newName) = true ↔
      (IsGenerated (instanceName name bindings newName) (provenanceOf template name bindings) →
        name ≠ twoWords ∧ IsOneWord (provenanceOf template name bindings)) := by
  cases h with
  | listed hb =>
    have hgenerated : IsGenerated (instanceName name bindings none)
        (provenanceOf template name bindings) := by
      intro p hp
      obtain ⟨t, -, rfl⟩ := Option.map_eq_some_iff.1 hp
      rfl
    rw [instanceName, Option.getD_none, isWord_listed_iff hname.ne_empty ht hb name,
      hname.isWord_iff]
    exact ⟨fun h _ => h, fun h => h hgenerated⟩
  | @named newName hne _ hn =>
    refine iff_of_true (isWord_of_isIdentifier hn) ?_
    intro hgenerated
    cases template with
    | none => exact absurd (List.eq_nil_of_length_eq_zero hlength.symm) hne
    | some t =>
      -- the new name happens to be the generated one
      have hsame : newName = generatedName name bindings := hgenerated _ rfl
      have hword : isWord (generatedName name bindings) = true :=
        hsame ▸ isWord_of_isIdentifier hn
      exact ne_twoWords_of_isWord hword

end Names

/-! ## Instances -/

namespace ClassDecl

variable {path : List String} {c y : ClassDecl} {bindings : List TypeExpr}
  {newName : Option String}

theorem WellFormed.isWord_iff (hc : c.WellFormed path) (hr : Requested c.template bindings newName)
    (h : c.instantiate bindings newName = .ok y) :
    isWord y.name = true ↔
      (IsGenerated y.name y.provenance → y.genericName ≠ twoWords ∧ IsOneWord y.provenance) := by
  have hmade := made_of_expand h
  rw [(generic_of_expand h hr.new).1, hmade.name, hmade.provenance]
  exact hr.isWord_instanceName_iff hc.template hc.isClassName hmade.arity

theorem Made.name_ne_empty (h : c.Made bindings newName y) (hc : c.WellFormed path)
    (hr : Requested c.template bindings newName) : y.name ≠ "" := by
  rw [h.name]
  cases hr with
  | listed => exact generatedName_ne_empty hc.isClassName.ne_empty bindings
  | named _ _ hn => exact IsClassName.ne_empty (.inr hn)

/-- The name of a constructor is that of the class with its own types behind it. -/
theorem Made.isWord_ctor_iff (h : c.Made bindings newName y) (hc : c.WellFormed path)
    (hr : Requested c.template bindings newName) {d : Constructor} (hd : d ∈ y.ctors) :
    isWord d.name = true ↔ isWord y.name = true ∧ IsOneWord d.provenance := by
  have hmem : Member.ctor d ∈ y.members := by simp [ClassDecl.members, hd]
  obtain ⟨g, hg, own, hown, hmade⟩ := h.exists_member hmem
  obtain ⟨head, hwf⟩ := hc.member hg
  cases hmade with
  | ctor => exact isWord_listed_iff (h.name_ne_empty hc hr) hwf.template hown _

theorem Made.isWord_method_iff (h : c.Made bindings newName y) (hc : c.WellFormed path)
    {d : Method} (hd : d ∈ y.methods) : isWord d.name = true ↔ IsOneWord d.provenance := by
  have hmem : Member.method d ∈ y.members := by simp [ClassDecl.members, hd]
  obtain ⟨g, hg, own, hown, hmade⟩ := h.exists_member hmem
  obtain ⟨head, hwf⟩ := hc.member hg
  cases hmade with
  | method => exact isWord_written_iff (hwf.names _ List.mem_cons_self) hwf.template hown

theorem Made.isWord_static_iff (h : c.Made bindings newName y) (hc : c.WellFormed path)
    {d : StaticMethod} (hd : d ∈ y.statics) : isWord d.name = true ↔ IsOneWord d.provenance := by
  have hmem : Member.static d ∈ y.members := by simp [ClassDecl.members, hd]
  obtain ⟨g, hg, own, hown, hmade⟩ := h.exists_member hmem
  obtain ⟨head, hwf⟩ := hc.member hg
  cases hmade with
  | static => exact isWord_written_iff (hwf.names _ List.mem_cons_self) hwf.template hown

end ClassDecl

theorem FunctionDecl.isWord_iff {path : List String} {d y : FunctionDecl}
    {bindings : List TypeExpr} {newName : Option String}
    (hd : (Declaration.function d).WellFormed path) (hr : Requested d.template bindings newName)
    (h : d.instantiate bindings newName = .ok y) :
    isWord y.name = true ↔ (IsGenerated y.name y.provenance → IsOneWord y.provenance) := by
  obtain ⟨hlength, result, args, -, -, rfl⟩ := eq_of_instantiate h
  cases hd with
  | @function _ name _ _ _ _ hn _ _ ht =>
    have hname : name ≠ twoWords := by
      rintro rfl
      cases hn
    rw [hr.isWord_instanceName_iff ht (.inr hn) hlength]
    exact imp_congr_right fun _ => and_iff_right hname

theorem VariableDecl.isWord_iff {path : List String} {d y : VariableDecl}
    {bindings : List TypeExpr} (hd : (Declaration.var d).WellFormed path)
    (hr : Requested d.template bindings none) (h : d.instantiate bindings none = .ok y) :
    isWord y.name = true ↔ IsOneWord y.provenance := by
  obtain ⟨-, type, -, rfl⟩ := eq_of_instantiate h
  cases hr with
  | listed hb =>
    cases hd with
    | var _ hn _ ht => exact isWord_written_iff hn ht hb

/-! ## Expanded files -/

namespace Interface

/-- **Which generated names are words.** In the expansion of a file that is read, whatever the
policy, the name of an instance is a word unless it has been generated from a name of two words: the
built-in type `unsigned char` among the types that are bound, or as the name of the class. The names
of constructors begin with that of the class and those of other members with the written name, which
is a word, and both go on with the types from the header of the member. -/
theorem isWord_names_iff {source : String} {m out : Interface} {policy : CollisionPolicy}
    (h : parse source = .ok m) (hout : m.instantiate policy = .ok out) {path : List String} :
    (∀ c, out.content.Has path (.cls c) →
      (isWord c.name = true ↔
        (IsGenerated c.name c.provenance → c.genericName ≠ twoWords ∧ IsOneWord c.provenance)) ∧
      (∀ d ∈ c.ctors, isWord d.name = true ↔ isWord c.name = true ∧ IsOneWord d.provenance) ∧
      (∀ d ∈ c.methods, isWord d.name = true ↔ IsOneWord d.provenance) ∧
      ∀ d ∈ c.statics, isWord d.name = true ↔ IsOneWord d.provenance) ∧
    (∀ f, out.content.Has path (.function f) →
      (isWord f.name = true ↔ (IsGenerated f.name f.provenance → IsOneWord f.provenance))) ∧
    ∀ v, out.content.Has path (.var v) →
      (isWord v.name = true ↔ IsOneWord v.provenance) := by
  refine ⟨?_, ?_, ?_⟩
  · intro y hy
    obtain ⟨place, g, -, hwf, hissues⟩ := exists_issues h hout hy
    cases hissues with
    | cls hr hmake =>
      cases hwf with
      | cls hc =>
        have hmade := ClassDecl.made_of_expand hmake
        exact ⟨hc.isWord_iff hr hmake, fun d hd => hmade.isWord_ctor_iff hc hr hd,
          fun d hd => hmade.isWord_method_iff hc hd, fun d hd => hmade.isWord_static_iff hc hd⟩
  · intro y hy
    obtain ⟨place, g, -, hwf, hissues⟩ := exists_issues h hout hy
    cases hissues with
    | function hr hmake => exact FunctionDecl.isWord_iff hwf hr hmake
  · intro y hy
    obtain ⟨place, g, -, hwf, hissues⟩ := exists_issues h hout hy
    cases hissues with
    | var hr hmake => exact VariableDecl.isWord_iff hwf hr hmake

/-- A class and a method of it, each expanded for the built-in type of two words and for another
one. -/
def cells : String :=
  "template<T = \x7bunsigned char, Point\x7d> class Cell \x7b "
    ++ "template<U = \x7bunsigned char, int\x7d> void put(U u); \x7d;"

/-- One class has a word for its name and the other one does not, and so it is with their
methods. -/
theorem cells_names : ∃ (m out : Interface) (c d : ClassDecl), parse cells = .ok m ∧
    m.instantiate .warn = .ok out ∧ out.content.Has [] (.cls c) ∧ out.content.Has [] (.cls d) ∧
    c.name = "CellPoint" ∧ isWord c.name = true ∧
    d.name = "CellUnsigned char" ∧ isWord d.name = false ∧
    c.methods.map Method.name = ["putUnsigned char", "putInt"] ∧
    ∀ f ∈ c.methods, isWord f.name = true ↔ IsOneWord f.provenance := by
  have hrun : ((parse cells).toOption.any fun m => (m.instantiate .warn).toOption.any fun out =>
      out.content.classes.any fun c => out.content.classes.any fun d =>
        decide (c.name = "CellPoint" ∧ c.genericName = "Cell" ∧
          (∀ b ∈ recordedBindings c.provenance, b.name ≠ twoWords) ∧
          c.methods.map Method.name = ["putUnsigned char", "putInt"] ∧
          d.name = "CellUnsigned char" ∧
          (∀ p ∈ d.provenance, d.name = generatedName p.genericName p.bindings) ∧
          ¬ ∀ b ∈ recordedBindings d.provenance, b.name ≠ twoWords)) = true := by
    decide +kernel
  simp only [Option.any_eq_true, List.any_eq_true, decide_eq_true_eq] at hrun
  obtain ⟨m, hm, out, hout, c, hc, d, hd, hname, hgeneric, hone, hmethods, hname', hgenerated,
    htwo⟩ := hrun
  have hparse := except_ok_of_toOption hm
  have hexpanded := except_ok_of_toOption hout
  have hc' : out.content.Has [] (.cls c) := .here (Content.mem_of_mem_classes hc)
  have hd' : out.content.Has [] (.cls d) := .here (Content.mem_of_mem_classes hd)
  obtain ⟨hiff, -, hmembers, -⟩ := (isWord_names_iff hparse hexpanded).1 c hc'
  obtain ⟨hiff', -⟩ := (isWord_names_iff hparse hexpanded).1 d hd'
  refine ⟨m, out, c, d, hparse, hexpanded, hc', hd', hname, ?_, hname', ?_, hmethods, hmembers⟩
  · rw [hiff, hgeneric]
    exact fun _ => ⟨by decide, hone⟩
  · rw [← Bool.not_eq_true, hiff']
    exact fun hall => htwo (hall hgenerated).2

/-- The name of a built-in type goes into generated names as it is, with the blank in it. -/
theorem not_forall_isWord_name : ¬ ∀ (source : String) (m out : Interface)
    (policy : CollisionPolicy), parse source = .ok m → m.instantiate policy = .ok out →
      ∀ path c, out.content.Has path (.cls c) → c.provenance.isSome = true →
        isWord c.name = true := by
  intro hall
  have hrun : ((parse "template<T = \x7bunsigned char\x7d> class Foo \x7b\x7d;").toOption.any
      fun m => (m.instantiate .ignore).toOption.any fun out => out.content.classes.any fun c =>
        c.provenance.isSome && c.name == "FooUnsigned char") = true := by
    decide +kernel
  simp only [Option.any_eq_true, List.any_eq_true, Bool.and_eq_true, beq_iff_eq] at hrun
  obtain ⟨m, hm, out, hout, c, hc, hmade, hname⟩ := hrun
  have hword := hall _ m out .ignore (except_ok_of_toOption hm) (except_ok_of_toOption hout) [] c
    (.here (Content.mem_of_mem_classes hc)) hmade
  rw [hname] at hword
  exact absurd hword (by decide)

end Interface

end TemplateIdl
