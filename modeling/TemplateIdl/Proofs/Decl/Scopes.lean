import TemplateIdl.Proofs.Decl.FileImage
import TemplateIdl.Proofs.Decl.Places
import TemplateIdl.Proofs.Decl.Text
import TemplateIdl.Proofs.Expand.Outcome

/-!
# Scopes — what declarations record of the place where they stand

A declaration knows the path of its namespaces, and a member knows its class. Both are written
down while the text is still being read: the path before the end of the namespace is seen, and the
class of a member before its other members are.

* `Member.Scoped`, a member that belongs to a class, and `ClassDecl.Scoped`, a class of such
  members in some namespaces;
* `Declaration.Scoped`, a declaration that knows its namespaces and was made from no other one;
* `Content.Has.wellFormed`, declarations at any depth of a file that can be written can be written
  there;
* `Content.mem_of_mem_classes` and its neighbours, what is looked up in a namespace stands in it;
* `Interface.scoped_of_parse`, all declarations that are read know where they stand.
-/

namespace TemplateIdl

/-! ## Records -/

/-- A member that belongs to the class and was made from no other one. Constructors have the name
of the class, and properties have no header. -/
def Member.Scoped (c : ClassDecl) : Member → Prop
  | .ctor d => d.name = c.name ∧ d.owner = c.selfType ∧ d.provenance = none
  | .method d => d.owner = c.selfType ∧ d.provenance = none
  | .static d => d.owner = c.selfType ∧ d.provenance = none
  | .special d => d.owner = c.selfType
  | .operator d => d.owner = c.selfType
  | .property d =>
    d.owner = some c.selfType ∧ d.namespaces = c.namespaces ∧ d.template = none ∧
      d.provenance = none
  | .enumeration d => d.namespaces = c.namespaces

/-- A class in the namespace `path`, to which all its members belong. -/
structure ClassDecl.Scoped (path : List String) (c : ClassDecl) : Prop where
  namespaces : c.namespaces = path
  provenance : c.provenance = none
  members : ∀ m ∈ c.members, m.Scoped c

/-- A declaration that stands in the namespace `path` and was made from no other one. -/
def Declaration.Scoped (path : List String) : Declaration → Prop
  | .cls d => d.Scoped path
  | .forward d => d.namespaces = path ∧ d.provenance = none
  | .enumeration d => d.namespaces = path
  | .var d => d.namespaces = path ∧ d.owner = none ∧ d.provenance = none
  | .function d => d.namespaces = path ∧ d.provenance = none
  | .typedef d => d.namespaces = path
  | .inclusion _ | .space _ _ _ => True

/-! ## Declarations that can be written -/

/-- The class is closed behind its last member, and is the one that the members know by then. -/
theorem Member.WellFormed.scoped {h : ClassHead} {m : Member} (hm : m.WellFormed h)
    (ms : List Member) (span : Span) : m.Scoped (h.close ms span) := by
  have hself := (h.selfType_close ms span).symm
  cases hm with
  | ctor => exact ⟨rfl, hself, rfl⟩
  | method => exact ⟨hself, rfl⟩
  | static => exact ⟨hself, rfl⟩
  | special => exact hself
  | operator => exact hself
  | property => exact ⟨congrArg some hself, rfl, rfl, rfl⟩
  | enumeration hd => exact hd.namespaces

theorem ClassDecl.WellFormed.scoped {path : List String} {c : ClassDecl} (h : c.WellFormed path) :
    c.Scoped path := by
  obtain ⟨head, ms, span, hhead, hms, rfl⟩ := h
  constructor
  · exact hhead.namespaces
  · rfl
  · intro m hm
    exact (hms m (head.members_close ms span hm)).scoped ms span

theorem Declaration.WellFormed.scoped {path : List String} {d : Declaration}
    (h : d.WellFormed path) : d.Scoped path := by
  cases h with
  | inclusion => trivial
  | space => trivial
  | cls hd => exact hd.scoped
  | forward => exact ⟨rfl, rfl⟩
  | enumeration hd => exact hd.namespaces
  | var => exact ⟨rfl, rfl, rfl⟩
  | function => exact ⟨rfl, rfl⟩
  | typedef => rfl

/-- What stands inside namespaces is well formed there. -/
theorem Content.Has.wellFormed {ds : Content} {path ns : List String} {d : Declaration}
    (h : ds.Has path d) (hds : ∀ d ∈ ds, d.WellFormed ns) : d.WellFormed (ns ++ path) := by
  induction h generalizing ns with
  | here hd =>
    rw [List.append_nil]
    exact hds _ hd
  | @inside ds content name span path d hs _ ih =>
    cases hds _ hs with
    | space _ hc =>
      have hd := ih hc
      rw [List.append_assoc] at hd
      exact hd

/-! ## Declarations that are looked up -/

namespace Content

variable {ds : Content}

theorem mem_of_mem_classes {c : ClassDecl} (h : c ∈ ds.classes) : .cls c ∈ ds := by
  obtain ⟨d, hd, he⟩ := List.mem_filterMap.1 h
  cases d <;> cases he
  exact hd

theorem mem_of_mem_functions {f : FunctionDecl} (h : f ∈ ds.functions) : .function f ∈ ds := by
  obtain ⟨d, hd, he⟩ := List.mem_filterMap.1 h
  cases d <;> cases he
  exact hd

theorem exists_mem_of_mem_spaces {name : String} {content : Content}
    (h : (name, content) ∈ ds.spaces) : ∃ span, .space name content span ∈ ds := by
  obtain ⟨d, hd, he⟩ := List.mem_filterMap.1 h
  cases d <;> cases he
  exact ⟨_, hd⟩

end Content

/-! ## Files that are read -/

namespace Interface

/-- All declarations that are read from a text know the namespaces around them, and all members
know their class, as it is once it has been read. None of them was made from another one. -/
theorem scoped_of_parse {source : String} {m : Interface} (h : parse source = .ok m)
    {path : List String} {d : Declaration} (hd : m.content.Has path d) : d.Scoped path := by
  have hwf := hd.wellFormed (wellFormed_of_parse h)
  exact hwf.scoped

/-- A class in two namespaces, of which the inner one is closed before the next declaration. -/
def shelf : String :=
  "namespace store \x7b namespace box \x7b template<T> class Crate \x7b Crate(T t); int size; \x7d; \x7d"
    ++ " int count(); \x7d"

/-- The class knows both namespaces and the function behind it only the outer one. -/
theorem shelf_scoped : ∃ (m : Interface) (c : ClassDecl) (f : FunctionDecl), parse shelf = .ok m ∧
    m.content.Has ["store", "box"] (.cls c) ∧ c.members.length = 2 ∧ c.Scoped ["store", "box"] ∧
    m.content.Has ["store"] (.function f) ∧ f.namespaces = ["store"] := by
  have hrun : ((parse shelf).toOption.any fun m => m.content.spaces.any fun outer =>
      outer.1 == "store" && outer.2.functions.length == 1 && outer.2.spaces.any fun inner =>
        inner.1 == "box" && inner.2.classes.any fun c => c.members.length == 2) = true := by
    decide +kernel
  simp only [Option.any_eq_true, List.any_eq_true, Bool.and_eq_true, beq_iff_eq] at hrun
  obtain ⟨m, hm, ⟨outer, store⟩, hstore, ⟨rfl, hcount⟩, ⟨inner, box⟩, hbox, rfl, c, hc, hlength⟩ :=
    hrun
  obtain ⟨f, hf⟩ := List.length_eq_one_iff.1 hcount
  have hparse := except_ok_of_toOption hm
  obtain ⟨outerSpan, hmem⟩ := Content.exists_mem_of_mem_spaces hstore
  obtain ⟨innerSpan, hmem'⟩ := Content.exists_mem_of_mem_spaces hbox
  have hclass : m.content.Has ["store", "box"] (.cls c) :=
    .inside hmem (.inside hmem' (.here (Content.mem_of_mem_classes hc)))
  have hfunction : m.content.Has ["store"] (.function f) :=
    .inside hmem (.here (Content.mem_of_mem_functions (by simp [hf])))
  have hscoped : (Declaration.function f).Scoped ["store"] := scoped_of_parse hparse hfunction
  exact ⟨m, c, f, hparse, hclass, hlength, scoped_of_parse hparse hclass, hfunction, hscoped.1⟩

end Interface

end TemplateIdl
