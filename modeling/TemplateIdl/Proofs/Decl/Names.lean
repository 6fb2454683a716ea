import TemplateIdl.Proofs.Decl.Scopes

/-!
# Names — what declarations are called

Names are read by two rules: almost all of them by the rule for identifiers, and those of classes by
the rule for names of types, which also reads the built-in types.

* `Declaration.ownName?`, the name that a declaration brings into its namespace, and
  `Declaration.innerNames`, those of its parameters, arguments, members and enumerators;
* `Template.WellFormed.names`, `Member.WellFormed.names` and their neighbours, which of them are
  identifiers in declarations that can be written;
* `Interface.isIdentifier_names_of_parse`, in a file all names are identifiers but those of classes
  that are named like a built-in type.
-/

namespace TemplateIdl

/-! ## Names that are declared -/

/-- Names of the arguments in order. -/
def argumentNames (args : List Argument) : List String := args.map Argument.name

/-- The name of an enumeration, and those of its enumerators. -/
def EnumDecl.names (d : EnumDecl) : List String := d.name :: d.enumerators

/-- Names that a member declares. Operators and special methods have no names of their own. -/
def Member.names : Member → List String
  | .ctor d => d.name :: (paramNames d.template ++ argumentNames d.args)
  | .method d => d.name :: (paramNames d.template ++ argumentNames d.args)
  | .static d => d.name :: (paramNames d.template ++ argumentNames d.args)
  | .special d => argumentNames d.args
  | .operator d => argumentNames d.args
  | .property d => d.name :: paramNames d.template
  | .enumeration d => d.names

namespace Declaration

/-- The name that a declaration brings into its namespace. Includes bring none, and a forward
declaration names a class that is declared elsewhere. -/
def ownName? : Declaration → Option String
  | inclusion _ | forward _ => none
  | space name _ _ => some name
  | cls d => some d.name
  | enumeration d => some d.name
  | var d => some d.name
  | function d => some d.name
  | typedef d => some d.newName

/-- Names that are declared inside a declaration. Those inside a namespace are the names of other
declarations. -/
def innerNames : Declaration → List String
  | inclusion _ | space _ _ _ | typedef _ => []
  | cls d => paramNames d.template ++ d.members.flatMap Member.names
  | forward d => paramNames d.template
  | enumeration d => d.enumerators
  | var d => paramNames d.template
  | function d => paramNames d.template ++ argumentNames d.args

end Declaration

/-! ## Names in what can be written -/

theorem Template.WellFormed.names {template : Option Template}
    (h : ∀ t ∈ template, t.WellFormed) : ∀ n ∈ paramNames template, isIdentifier n = true := by
  cases template with
  | none => exact nofun
  | some t =>
    intro n hn
    obtain ⟨p, hp, rfl⟩ := List.mem_map.1 hn
    exact ((h t rfl).params p hp).name

theorem WellFormedArguments.names {args : List Argument} (h : WellFormedArguments args) :
    ∀ n ∈ argumentNames args, isIdentifier n = true := by
  intro n hn
  obtain ⟨a, ha, rfl⟩ := List.mem_map.1 hn
  exact (h.each a ha).name

theorem EnumDecl.WellFormed.names {ns : List String} {d : EnumDecl} (h : d.WellFormed ns) :
    ∀ n ∈ d.names, isIdentifier n = true :=
  List.forall_mem_cons.2 ⟨h.name, h.enumerators⟩

/-- Names of one callable: its own, its parameters and its arguments. -/
theorem isIdentifier_callable {name : String} {template : Option Template} {args : List Argument}
    (hn : isIdentifier name = true) (ht : ∀ t ∈ template, t.WellFormed)
    (ha : WellFormedArguments args) :
    ∀ n ∈ name :: (paramNames template ++ argumentNames args), isIdentifier n = true :=
  List.forall_mem_cons.2 ⟨hn, List.forall_mem_append.2 ⟨Template.WellFormed.names ht, ha.names⟩⟩

theorem Member.WellFormed.names {h : ClassHead} {m : Member} (hm : m.WellFormed h) :
    ∀ n ∈ m.names, isIdentifier n = true := by
  cases hm with
  | ctor hn _ ha ht => exact isIdentifier_callable hn ht ha
  | method hn _ ha ht => exact isIdentifier_callable hn ht ha
  | static hn _ ha ht => exact isIdentifier_callable hn ht ha
  | special _ _ ha => exact ha.names
  | operator _ ha => exact ha.names
  | property _ hn _ => exact List.forall_mem_cons.2 ⟨hn, nofun⟩
  | enumeration hd => exact hd.names

namespace Declaration

variable {path : List String} {d : Declaration}

/-- Inside a declaration all names are identifiers, those of the members of a class included. -/
theorem WellFormed.innerNames (h : d.WellFormed path) :
    ∀ n ∈ d.innerNames, isIdentifier n = true := by
  cases h with
  | inclusion => exact nofun
  | space => exact nofun
  | cls hd =>
    obtain ⟨head, ms, span, hhead, hms, rfl⟩ := hd
    refine List.forall_mem_append.2 ⟨Template.WellFormed.names hhead.template, ?_⟩
    intro n hn
    obtain ⟨m, hm, hn⟩ := List.mem_flatMap.1 hn
    exact (hms m (head.members_close ms span hm)).names n hn
  | forward _ _ ht => exact Template.WellFormed.names ht
  | enumeration hd => exact hd.enumerators
  | var _ _ _ ht => exact Template.WellFormed.names ht
  | function _ _ ha ht => exact List.forall_mem_append.2 ⟨Template.WellFormed.names ht, ha.names⟩
  | typedef => exact nofun

/-- The name of a declaration is an identifier, unless it is that of a class. -/
theorem WellFormed.ownName (h : d.WellFormed path) {n : String} (hn : n ∈ d.ownName?) :
    isIdentifier n = true ∨ ∃ c, d = .cls c ∧ n ∈ basicTypeNames := by
  cases h with
  | inclusion => cases hn
  | forward => cases hn
  | space hname => exact .inl (Option.some.inj hn ▸ hname)
  | cls hd =>
    obtain ⟨head, ms, span, hhead, -, rfl⟩ := hd
    cases hn
    rcases hhead.name with hbasic | hname
    · exact .inr ⟨_, rfl, hbasic⟩
    · exact .inl hname
  | enumeration hd => exact .inl (Option.some.inj hn ▸ hd.name)
  | var _ hname => exact .inl (Option.some.inj hn ▸ hname)
  | function hname => exact .inl (Option.some.inj hn ▸ hname)
  | typedef _ _ _ hname => exact .inl (Option.some.inj hn ▸ hname)

end Declaration

/-! ## Files -/

namespace Interface

/-- **Names are identifiers, but for classes named like a built-in type.** At any depth of a file
that is read, everything that is declared inside a declaration, from template parameters to the
enumerators of a class, is called by an identifier, which no keyword is. So is the declaration
itself, unless it is a class whose name is that of a built-in type. -/
theorem isIdentifier_names_of_parse {source : String} {m : Interface} (h : parse source = .ok m)
    {path : List String} {d : Declaration} (hd : m.content.Has path d) :
    (∀ n ∈ d.innerNames, isIdentifier n = true) ∧
    ∀ n ∈ d.ownName?, (isIdentifier n = true ↔ ∀ c, d = .cls c → n ∉ basicTypeNames) := by
  have hwf := hd.wellFormed (wellFormed_of_parse h)
  refine ⟨hwf.innerNames, ?_⟩
  intro n hn
  constructor
  · intro hidentifier _ _
    exact not_basic_of_isIdentifier hidentifier
  · intro hclass
    rcases hwf.ownName hn with hidentifier | ⟨c, rfl, hbasic⟩
    · exact hidentifier
    · exact absurd hbasic (hclass c rfl)

/-- A class in a namespace, with a parameter, an argument and an enumerator, and a class with the
name of a built-in type. -/
def depot : String :=
  "namespace depot \x7b template<T> class Parcel \x7b void send(T to); enum Size \x7b Small \x7d; "
    ++ "\x7d; \x7d class int \x7b bool odd() const; \x7d;"

/-- All names of the first class are identifiers. Of the second one, all but its own are. -/
theorem depot_names : ∃ (m : Interface) (parcel number : ClassDecl), parse depot = .ok m ∧
    m.content.Has ["depot"] (.cls parcel) ∧ m.content.Has [] (.cls number) ∧
    (Declaration.cls parcel).innerNames = ["T", "send", "to", "Size", "Small"] ∧
    (∀ n ∈ (Declaration.cls parcel).innerNames, isIdentifier n = true) ∧
    parcel.name = "Parcel" ∧ isIdentifier parcel.name = true ∧
    (∀ n ∈ (Declaration.cls number).innerNames, isIdentifier n = true) ∧
    number.name = "int" ∧ isIdentifier number.name = false := by
  have hrun : ((parse depot).toOption.any fun m =>
      (m.content.spaces.any fun inner => inner.1 == "depot" && inner.2.classes.any fun c =>
        c.name == "Parcel" &&
          (Declaration.cls c).innerNames == ["T", "send", "to", "Size", "Small"]) &&
      m.content.classes.any fun c => c.name == "int") = true := by
    decide +kernel
  simp only [Option.any_eq_true, List.any_eq_true, Bool.and_eq_true, beq_iff_eq] at hrun
  obtain ⟨m, hm, ⟨⟨_, inner⟩, hinner, rfl, parcel, hparcel, hname, hnames⟩, number, hnumber,
    hbuiltin⟩ := hrun
  have hparse := except_ok_of_toOption hm
  obtain ⟨span, hmem⟩ := Content.exists_mem_of_mem_spaces hinner
  have hin : m.content.Has ["depot"] (.cls parcel) :=
    .inside hmem (.here (Content.mem_of_mem_classes hparcel))
  have hout : m.content.Has [] (.cls number) := .here (Content.mem_of_mem_classes hnumber)
  obtain ⟨hinside, hown⟩ := isIdentifier_names_of_parse hparse hin
  obtain ⟨hinside', hown'⟩ := isIdentifier_names_of_parse hparse hout
  refine ⟨m, parcel, number, hparse, hin, hout, hnames, hinside, hname, ?_, hinside', hbuiltin, ?_⟩
  · refine (hown _ rfl).2 ?_
    intro _ _
    rw [hname]
    decide
  · rw [← Bool.not_eq_true, hown' _ rfl, hbuiltin]
    intro hclass
    exact hclass number rfl (by decide)

/-- The rule for the names of types also reads built-in types as the name of a class, although the
class is refused if the name has a path or arguments. -/
theorem not_forall_isIdentifier_names : ¬ ∀ (source : String) (m : Interface),
    parse source = .ok m → ∀ path d, m.content.Has path d →
      ∀ n ∈ d.ownName?, isIdentifier n = true := by
  intro hall
  have hrun : ((parse "class int \x7b\x7d;").toOption.any fun m =>
      m.content.classes.any fun c => c.name == "int") = true := by
    decide +kernel
  simp only [Option.any_eq_true, List.any_eq_true, beq_iff_eq] at hrun
  obtain ⟨m, hm, c, hc, hname⟩ := hrun
  have hclass : m.content.Has [] (.cls c) := .here (Content.mem_of_mem_classes hc)
  have hint := hall _ m (except_ok_of_toOption hm) [] _ hclass _ rfl
  rw [hname] at hint
  exact absurd hint (by decide)

end Interface

end TemplateIdl
