import TemplateIdl.Proofs.Expand.Self
import TemplateIdl.Proofs.Expand.Splice

/-!
# NewName — instances under another name

An instance can be given a new name in place of the generated one. All of the expansion is the same
with it, up to the names of the instance and of its constructors. But C++ knows a declaration
without a header by its name, so there the new name is also one for C++.

* `ClassDecl.renamed` and `FunctionDecl.renamed`, a declaration under another name;
* `outcome_expandMembers`, members under another name and in another scope;
* `ClassDecl.instantiate_some` and `FunctionDecl.instantiate_some`, an instance with a new name is
  the one without it, renamed;
* `Interface.instantiate_newName`, and what C++ makes of that.
-/

namespace TemplateIdl

/-! ## Renamed declarations -/

/-- The bindings that an instance records; none without a record. -/
def recordedBindings (provenance : Option Provenance) : List TypeExpr :=
  match provenance with
  | some p => p.bindings
  | none => []

/-- The constructor in a class of another name. Its own bindings stay in its name. -/
def Constructor.renamed (className : String) (d : Constructor) : Constructor :=
  { d with name := generatedName className (recordedBindings d.provenance) }

/-- The class with another name and with constructors that are named like it. -/
def ClassDecl.renamed (name : String) (c : ClassDecl) : ClassDecl :=
  { c with name := name, ctors := c.ctors.map (Constructor.renamed name) }

/-- The function with another name. -/
def FunctionDecl.renamed (name : String) (d : FunctionDecl) : FunctionDecl :=
  { d with name := name }

/-! ## Members -/

section Members

variable {μ : Type} [TemplatedMember μ] {x : ClassContext} {base base' : μ → String} {k : μ → μ}

open TemplatedMember

/-- A member whose name begins with `base'` is, up to the renaming `k`, the one whose name begins
with `base`. Without a header there are no bindings. -/
def Renames (owner : Typename) (base base' : μ → String) (k : μ → μ) : Prop :=
  ∀ σ bindings d, (template d = none → bindings = []) →
    concrete? σ owner (generatedName (base' d) bindings)
        (provenanceOf (template d) (name d) bindings) d =
      (concrete? σ owner (generatedName (base d) bindings)
        (provenanceOf (template d) (name d) bindings) d).map k

/-- Without another name there is nothing to rename. -/
theorem renames_id (owner : Typename) (base : μ → String) : Renames owner base base id := by
  intro σ bindings d _
  rw [Option.map_id, id]

/-- The scope of a member only counts for the names that are registered. -/
theorem outcome_expandMember (h : Renames x.owner base base' k) (scope : List String) (d : μ) :
    (expandMember { x with scope := scope } base' d).outcome =
      (expandMember x base d).outcome.map (List.map k) := by
  unfold expandMember
  cases ht : template d with
  | none =>
    have hone := h x.substitution [] d fun _ => rfl
    simp only [ht, provenanceOf, Option.map_none, generatedName_nil] at hone
    simp only [Expansion.outcome_bind, concreteMember, Expansion.outcome_lift, hone, resolved_map,
      except_bind_map, except_map_bind]
    rfl
  | some t =>
    refine Expansion.outcome_forEach_map ?_ _
    intro bindings
    have hone := h (x.substitution.extend t.names bindings) bindings d (by simp [ht])
    simp only [ht, provenanceOf, Option.map_some] at hone
    simp only [Expansion.outcome_bind, Expansion.outcome_register, Except.bind, concreteMember,
      Expansion.outcome_lift, hone, resolved_map]

theorem outcome_expandMembers (h : Renames x.owner base base' k) (scope : List String)
    (ds : List μ) :
    (expandMembers { x with scope := scope } base' ds).outcome =
      (expandMembers x base ds).outcome.map (List.map k) := by
  have hgroups := Expansion.outcome_forEach_map (outcome_expandMember h scope) ds
  simp only [expandMembers, Expansion.outcome_bind, hgroups, except_bind_map, except_map_bind,
    Expansion.outcome_pure, ← List.map_flatten]
  rfl

end Members

/-- A constructor is named like its class, and keeps its bindings. -/
theorem renames_constructor (owner : Typename) (name newName : String) :
    Renames owner (fun _ => name) (fun _ => newName) (Constructor.renamed newName) := by
  intro σ bindings d hnone
  have hrecorded : recordedBindings (provenanceOf d.template d.name bindings) = bindings := by
    cases ht : d.template with
    | none => exact (hnone ht).symm
    | some t => rfl
  simp only [TemplatedMember.concrete?, TemplatedMember.template, TemplatedMember.name]
  cases σ.substArguments? d.args with
  | none => rfl
  | some args =>
    simp only [Option.bind_eq_bind, Option.bind_some, Option.map_some, Constructor.renamed,
      hrecorded]

/-! ## Classes -/

namespace ClassDecl

/-- An instance with a new name is the one without it, renamed, and it fails where that one does. -/
theorem instantiate_some (c : ClassDecl) (bindings : List TypeExpr) (newName : String) :
    c.instantiate bindings (some newName) =
      (c.instantiate bindings none).map (ClassDecl.renamed newName) := by
  -- the contexts of the two runs differ in the scope only
  have hctors : ∀ σ, (expandMembers (c.context σ bindings newName) (fun _ => newName)
        c.ctors).outcome =
      (expandMembers (c.context σ bindings (generatedName c.name bindings))
        (fun _ => generatedName c.name bindings) c.ctors).outcome.map
          (List.map (Constructor.renamed newName)) := by
    intro σ
    exact outcome_expandMembers (x := c.context σ bindings (generatedName c.name bindings))
      (renames_constructor _ _ newName) (c.namespaces ++ [newName]) c.ctors
  have hplain : ∀ {μ : Type} [TemplatedMember μ] (base : μ → String) (ds : List μ) σ,
      (expandMembers (c.context σ bindings newName) base ds).outcome =
        (expandMembers (c.context σ bindings (generatedName c.name bindings)) base ds).outcome := by
    intro μ _ base ds σ
    have hsame := outcome_expandMembers (x := c.context σ bindings (generatedName c.name bindings))
      (renames_id _ base) (c.namespaces ++ [newName]) ds
    rw [List.map_id_fun, except_map_id] at hsame
    exact hsame
  unfold instantiate expand
  simp only [instanceName, Option.getD_some, Option.getD_none, Expansion.outcome_bind,
    Expansion.outcome_lift, Expansion.outcome_pure, hctors, hplain, except_bind_map,
    except_map_bind]
  rfl

end ClassDecl

/-- An instance with a new name is the one without it, renamed, and it fails where that one does. -/
theorem FunctionDecl.instantiate_some (d : FunctionDecl) (bindings : List TypeExpr)
    (newName : String) :
    d.instantiate bindings (some newName) =
      (d.instantiate bindings none).map (FunctionDecl.renamed newName) := by
  unfold instantiate instantiateAt
  simp only [bind, pure, except_map_bind]
  rfl

/-! ## Names in C++ -/

theorem pathText_inj {path : List String} {name name' : String} :
    pathText path name = pathText path name' ↔ name = name' := by
  induction path with
  | nil => rfl
  | cons s path ih => rw [pathText, pathText, String.append_right_inj, ih]

namespace Typename

variable {path : List String} {name name' : String} {args : List TypeExpr}

theorem ofPath_inj : ofPath path name args = ofPath path name' args ↔ name = name' := by
  constructor
  · intro h
    rw [← ofPath_name path name args, h, ofPath_name]
  · rintro rfl
    rfl

/-- In C++, too, names in one place and with the same arguments differ. -/
theorem cpp_ofPath_inj :
    (ofPath path name args).cpp = (ofPath path name' args).cpp ↔ name = name' := by
  unfold ofPath
  split <;> simp only [cpp, cppWith, qualifiedName, String.append_left_inj, pathText_inj]

end Typename

namespace ClassDecl

variable {c y : ClassDecl} {bindings : List TypeExpr}

theorem genericName_renamed_iff (h : c.instantiate bindings none = .ok y) (newName : String) :
    (y.renamed newName).genericName = y.genericName ↔
      c.template.isSome = true ∨ newName = c.name := by
  obtain ⟨hgeneric, -⟩ := generic_of_expand h (.inl rfl)
  have hprovenance := (expandsTo_of_expand h).provenance
  rw [hgeneric]
  cases ht : c.template with
  | some t =>
    rw [ht] at hprovenance
    simp [genericName, renamed, hprovenance, provenanceOf]
  | none =>
    rw [ht] at hprovenance
    simp [genericName, renamed, hprovenance, provenanceOf]

/-- To C++, a renamed instance is the same class if it has its generic name still. -/
theorem cppType_renamed_iff (c : ClassDecl) (newName : String) :
    ((c.renamed newName).cppType = c.cppType ↔
      (c.renamed newName).genericName = c.genericName) ∧
    ((c.renamed newName).cppName = c.cppName ↔
      (c.renamed newName).genericName = c.genericName) := by
  have hnamespaces : (c.renamed newName).namespaces = c.namespaces := rfl
  have hbindings : (c.renamed newName).bindings = c.bindings := rfl
  rw [cppName, cppName, cppType_eq, cppType_eq, hnamespaces, hbindings]
  exact ⟨Typename.ofPath_inj, Typename.cpp_ofPath_inj⟩

end ClassDecl

theorem FunctionDecl.cppName_renamed_iff {d y : FunctionDecl} {bindings : List TypeExpr}
    {newName : String} (hd : ∀ t ∈ d.template, t.WellFormed)
    (h : d.instantiate bindings none = .ok y) :
    (y.renamed newName).cppName = y.cppName ↔ d.template.isSome = true ∨ newName = d.name := by
  obtain ⟨hlength, result, args, -, -, rfl⟩ := eq_of_instantiate h
  cases ht : d.template with
  | some t =>
    -- a header has parameters, so there are bindings, and C++ code calls the function by them
    rw [ht, paramNames, Template.names, List.length_map] at hlength
    have hne : bindings ≠ [] := by
      rintro rfl
      exact (hd t ht).ne_nil (List.eq_nil_of_length_eq_zero hlength)
    simp [cppName, renamed, callName, provenanceOf, hne]
  | none =>
    rw [ht] at hlength
    have hnil : bindings = [] := List.eq_nil_of_length_eq_zero hlength.symm
    simp [cppName, renamed, callName, provenanceOf, hnil, instanceName, generatedName_nil]

namespace Interface

/-- **A new name only renames, but without a header it is a name for C++ as well.** The instance of a
class or a function of a file with a new name is the one with the generated name, renamed: nothing
but its own name and those of its constructors differ, and it fails where that one does. C++ knows
the two by the same name exactly if the declaration has a header or the new name is the one that it
had. -/
theorem instantiate_newName {source : String} {m : Interface} {path : List String}
    (hm : Interface.parse source = .ok m) :
    (∀ c, m.content.Has path (.cls c) → ∀ bindings newName,
      c.instantiate bindings (some newName) = (c.instantiate bindings none).map (.renamed newName) ∧
      ∀ y, c.instantiate bindings none = .ok y →
        ((y.renamed newName).cppType = y.cppType ↔
          c.template.isSome = true ∨ newName = c.name) ∧
        ((y.renamed newName).cppName = y.cppName ↔
          c.template.isSome = true ∨ newName = c.name)) ∧
    ∀ d, m.content.Has path (.function d) → ∀ bindings newName,
      d.instantiate bindings (some newName) = (d.instantiate bindings none).map (.renamed newName) ∧
      ∀ y, d.instantiate bindings none = .ok y →
        ((y.renamed newName).cppName = y.cppName ↔
          d.template.isSome = true ∨ newName = d.name) := by
  have hfile := Interface.wellFormed_of_parse hm
  constructor
  · intro c hc bindings newName
    refine ⟨c.instantiate_some bindings newName, ?_⟩
    intro y hy
    obtain ⟨htype, hname⟩ := y.cppType_renamed_iff newName
    have hgeneric := ClassDecl.genericName_renamed_iff hy newName
    exact ⟨htype.trans hgeneric, hname.trans hgeneric⟩
  · intro d hd bindings newName
    refine ⟨d.instantiate_some bindings newName, ?_⟩
    intro y hy
    apply FunctionDecl.cppName_renamed_iff ?_ hy
    cases hd.wellFormed hfile with
    | function _ _ _ ht => exact ht

/-- A class without a header, a class with one, and a function with one. -/
def wares : String :=
  "class Foo \x7b Foo(); template<U = \x7bint\x7d> Foo(U u); \x7d; "
    ++ "template<T> class Box \x7b Box(const T& t); \x7d; template<T> T get(T t);"

/-- The constructors of `Foo` are renamed with it, and so is what C++ calls it. To C++, `Box<int>`
and `get<int>` are the same under any name. -/
theorem wares_newName : ∃ (m : Interface) (foo box y z : ClassDecl) (d f : FunctionDecl),
    Interface.parse wares = .ok m ∧ m.content.classes = [foo, box] ∧ m.content.functions = [d] ∧
    foo.instantiate [] none = .ok y ∧ foo.instantiate [] (some "Bar") = .ok (y.renamed "Bar") ∧
    (y.renamed "Bar").ctors.map Constructor.name = ["Bar", "BarInt"] ∧
    (y.renamed "Bar").cppName ≠ y.cppName ∧
    box.instantiate [.named "int"] none = .ok z ∧ z.cppName = "Box<int>" ∧
    box.instantiate [.named "int"] (some "Bar") = .ok (z.renamed "Bar") ∧
    (z.renamed "Bar").cppName = z.cppName ∧
    d.instantiate [.named "int"] none = .ok f ∧ f.cppName = "get<int>" ∧
    (f.renamed "pick").cppName = f.cppName := by
  have hrun : ((Interface.parse wares).toOption.any fun m => m.content.classes.any fun foo =>
      m.content.classes.any fun box => m.content.functions.any fun d =>
      (foo.instantiate [] none).toOption.any fun y =>
      (box.instantiate [.named "int"] none).toOption.any fun z =>
      (d.instantiate [.named "int"] none).toOption.any fun f => decide (
        m.content.classes = [foo, box] ∧ m.content.functions = [d] ∧
        (y.renamed "Bar").ctors.map Constructor.name = ["Bar", "BarInt"] ∧
        z.cppName = "Box<int>" ∧ f.cppName = "get<int>" ∧ foo.template = none ∧ foo.name = "Foo" ∧
        box.template.isSome = true ∧ d.template.isSome = true)) = true := by
    decide +kernel
  simp only [Option.any_eq_true, List.any_eq_true, decide_eq_true_eq] at hrun
  obtain ⟨m, hm, foo, hfoo, box, hbox, d, hd, y, hy, z, hz, f, hf, hclasses, hfunctions, hctors,
    hcpp, hget, hplain, hname, hheader, hheader'⟩ := hrun
  have hparse := except_ok_of_toOption hm
  replace hy := except_ok_of_toOption hy
  replace hz := except_ok_of_toOption hz
  replace hf := except_ok_of_toOption hf
  obtain ⟨hclass, hfunction⟩ := @instantiate_newName _ _ [] hparse
  obtain ⟨hsomeFoo, hcppFoo⟩ := hclass foo (.here (Content.mem_of_mem_classes hfoo)) [] "Bar"
  obtain ⟨hsomeBox, hcppBox⟩ :=
    hclass box (.here (Content.mem_of_mem_classes hbox)) [.named "int"] "Bar"
  obtain ⟨-, hcppGet⟩ :=
    hfunction d (.here (Content.mem_of_mem_functions hd)) [.named "int"] "pick"
  rw [hy] at hsomeFoo
  rw [hz] at hsomeBox
  have hchanged : (y.renamed "Bar").cppName ≠ y.cppName := by
    rw [Ne, (hcppFoo y hy).2, hplain, hname]
    decide
  exact ⟨m, foo, box, y, z, d, f, hparse, hclasses, hfunctions, hy, hsomeFoo, hctors, hchanged, hz,
    hcpp, hsomeBox, (hcppBox z hz).2.2 (.inl hheader), hf, hget, (hcppGet f hf).2 (.inl hheader')⟩

/-- Without a header, the new name is also the name of the C++ type: the class `Foo` that is called
`Bar` stands for a C++ class `Bar`. -/
theorem not_forall_cppType_renamed :
    ¬ ∀ (source : String) (m : Interface) (path : List String) (c y y' : ClassDecl)
        (bindings : List TypeExpr) (newName : String), Interface.parse source = .ok m →
      m.content.Has path (.cls c) → c.instantiate bindings none = .ok y →
      c.instantiate bindings (some newName) = .ok y' → y'.cppType = y.cppType := by
  intro hall
  have hrun : ((Interface.parse "class Foo \x7b Foo(); \x7d;").toOption.any fun m =>
      m.content.classes.any fun c => (c.instantiate [] none).toOption.any fun y =>
      (c.instantiate [] (some "Bar")).toOption.any fun y' => decide (
        y.cppType.text = "Foo" ∧ y'.cppType.text = "Bar")) = true := by
    decide +kernel
  simp only [Option.any_eq_true, List.any_eq_true, decide_eq_true_eq] at hrun
  obtain ⟨m, hm, c, hc, y, hy, y', hy', hfoo, hbar⟩ := hrun
  have hsame := hall _ m [] c y y' [] "Bar" (except_ok_of_toOption hm)
    (.here (Content.mem_of_mem_classes hc)) (except_ok_of_toOption hy) (except_ok_of_toOption hy')
  rw [hsame, hfoo] at hbar
  exact absurd hbar (by decide)

end Interface

end TemplateIdl
