import TemplateIdl.Grammar.Declaration
import TemplateIdl.Proofs.Decl.Words
import TemplateIdl.Proofs.Grammar.Inclusion
import TemplateIdl.Proofs.TypeExpr.Image

/-!
# Well-formed declarations — the declarations that can be written

* `ArgumentsFit` and `WellFormedArguments`, arguments of which each default ends where the next
  argument begins;
* `Member.WellFormed`, a member of a class, and `ClassDecl.WellFormed`, a class of such members;
* `Declaration.WellFormed` and `Interface.WellFormed`, all declarations inside given namespaces
  and whole files.

What a declaration repeats of the place where it stands, its namespaces and its owner, is fixed
by that place. Nothing that was written by hand has a provenance.
-/

namespace TemplateIdl

/-! ## What declarations share -/

/-- An argument by itself. -/
structure Argument.WellFormed (a : Argument) : Prop where
  type : a.type.WellFormed false
  name : isIdentifier a.name = true
  isDefault : ∀ d ∈ a.default?, IsDefault d

/-- Each default ends in front of the words of the next arguments, behind which `us` stands. -/
def ArgumentsFit (us : List Token) : List Argument → Prop
  | [] => True
  | a :: as =>
    (∀ d ∈ a.default?, DefaultFits d (commaWords us (as.map Argument.words))) ∧ ArgumentsFit us as

/-- Arguments in parentheses. -/
structure WellFormedArguments (args : List Argument) : Prop where
  each : ∀ a ∈ args, a.WellFormed
  fit : ArgumentsFit [.sign .rightParen] args

/-- A template parameter. -/
structure TemplateParam.WellFormed (p : TemplateParam) : Prop where
  name : isIdentifier p.name = true
  choices : ∀ t ∈ p.choices, t.WellFormed false

/-- A template header, which has at least one parameter. -/
structure Template.WellFormed (t : Template) : Prop where
  params : ∀ p ∈ t.params, p.WellFormed
  ne_nil : t.params ≠ []

/-- A result, read from one type. -/
def ReturnType.WellFormed (r : ReturnType) : Prop :=
  ∃ t : TypeExpr, t.WellFormed false ∧ r = .ofType t

/-- What a type is read as: itself, or the pair of its arguments. -/
theorem ReturnType.ofType_cases (t : TypeExpr) : ofType t = .single t ∨
    ∃ first second, ofType t = .pair first second ∧ t.args = [first, second] ∧
      first.isTemplated = false ∧ second.isTemplated = false := by
  unfold ofType
  split
  · next first second hargs =>
    split
    · next h => exact .inr ⟨first, second, rfl, hargs, h.2.2.2.2⟩
    · exact .inl rfl
  · exact .inl rfl

/-- A result is read from the type that it is written as. -/
theorem ReturnType.ofType_written (t : TypeExpr) : ofType (ofType t).written = ofType t := by
  rcases ofType_cases t with h | ⟨first, second, h, -, hfirst, hsecond⟩
  · rw [h, written, h]
  · rw [h]
    exact if_pos ⟨rfl, .inl rfl, rfl, rfl, hfirst, hsecond⟩

theorem ReturnType.WellFormed.written {r : ReturnType} (h : r.WellFormed) :
    r.written.WellFormed false := by
  obtain ⟨t, ht, rfl⟩ := h
  rcases ofType_cases t with h | ⟨first, second, h, hargs, -, -⟩
  · rw [h]
    exact ht
  · rw [h]
    refine .named (by simp) (by decide) ?_
    rw [← hargs]
    exact ht.args

theorem ReturnType.WellFormed.ofType_written {r : ReturnType} (h : r.WellFormed) :
    .ofType r.written = r := by
  obtain ⟨t, -, rfl⟩ := h
  exact ReturnType.ofType_written t

/-- The default of a variable, which a semicolon follows. -/
def WellFormedDefault (default? : Option String) : Prop :=
  ∀ d ∈ default?, IsDefault d ∧ DefaultFits d [.sign .semicolon]

/-- An enumeration inside the namespaces `ns`. -/
structure EnumDecl.WellFormed (ns : List String) (d : EnumDecl) : Prop where
  name : isIdentifier d.name = true
  enumerators : ∀ n ∈ d.enumerators, isIdentifier n = true
  namespaces : d.namespaces = ns

/-! ## Classes -/

/-- A member of a class with the head `h`. -/
inductive Member.WellFormed (h : ClassHead) : Member → Prop
  | ctor {args : List Argument} {template : Option Template} {span : Span}
      (hn : isIdentifier h.name = true) (hs : specialName? h.name.toList = none)
      (ha : WellFormedArguments args) (ht : ∀ t ∈ template, t.WellFormed) :
      WellFormed h (.ctor ⟨h.name, args, h.selfType, template, span, none⟩)
  | method {name : String} {result : ReturnType} {args : List Argument} {isConst : Bool}
      {template : Option Template} {span : Span} (hn : isIdentifier name = true)
      (hr : result.WellFormed) (ha : WellFormedArguments args) (ht : ∀ t ∈ template, t.WellFormed) :
      WellFormed h (.method ⟨name, result, args, isConst, h.selfType, template, span, none⟩)
  | static {name : String} {result : ReturnType} {args : List Argument}
      {template : Option Template} {span : Span} (hn : isIdentifier name = true)
      (hr : result.WellFormed) (ha : WellFormedArguments args) (ht : ∀ t ∈ template, t.WellFormed) :
      WellFormed h (.static ⟨name, result, args, h.selfType, template, span, none⟩)
  | special {name : String} {args : List Argument} {span : Span}
      (hn : isIdentifier ("__" ++ name ++ "__") = true)
      (hs : specialName? ("__" ++ name ++ "__").toList = some name.toList)
      (ha : WellFormedArguments args) :
      WellFormed h (.special ⟨name, args, h.selfType, span⟩)
  | operator {symbol : OperatorSymbol} {result : ReturnType} {args : List Argument}
      {isConst : Bool} {span : Span} (hr : result.WellFormed) (ha : WellFormedArguments args) :
      WellFormed h (.operator ⟨symbol, result, args, isConst, h.selfType, span⟩)
  | property {type : TypeExpr} {name : String} {default? : Option String} {span : Span}
      (ht : type.WellFormed false) (hn : isIdentifier name = true)
      (hd : WellFormedDefault default?) :
      WellFormed h
        (.property ⟨type, name, default?, none, h.namespaces, some h.selfType, span, none⟩)
  | enumeration {d : EnumDecl} (hd : d.WellFormed h.namespaces) : WellFormed h (.enumeration d)

/-- The names of classes, which may be those of built-in types. -/
def IsClassName (name : String) : Prop := name ∈ basicTypeNames ∨ isIdentifier name = true

theorem IsClassName.typename {name : String} (h : IsClassName name) :
    (Typename.simple name).WellFormed false := by
  rcases h with h | h
  · exact .basic h
  · exact .named (by simp) h (by simp)

/-- The head of a class inside the namespaces `ns`. -/
structure ClassHead.WellFormed (ns : List String) (h : ClassHead) : Prop where
  name : IsClassName h.name
  template : ∀ t ∈ h.template, t.WellFormed
  parent : ∀ t ∈ h.parent, t.WellFormed false
  namespaces : h.namespaces = ns

/-- A class inside the namespaces `ns`. -/
def ClassDecl.WellFormed (ns : List String) (c : ClassDecl) : Prop :=
  ∃ (h : ClassHead) (ms : List Member) (span : Span),
    h.WellFormed ns ∧ (∀ m ∈ ms, m.WellFormed h) ∧ c = h.close ms span

/-! ## Declarations -/

/-- A declaration inside the namespaces `ns`. -/
inductive Declaration.WellFormed : List String → Declaration → Prop
  | inclusion {ns : List String} {d : IncludeDecl} (hp : IsIncludePath d.path) :
      WellFormed ns (.inclusion d)
  | space {ns : List String} {name : String} {content : List Declaration} {span : Span}
      (hn : isIdentifier name = true) (hc : ∀ d ∈ content, WellFormed (ns ++ [name]) d) :
      WellFormed ns (.space name content span)
  | cls {ns : List String} {d : ClassDecl} (hd : d.WellFormed ns) : WellFormed ns (.cls d)
  | forward {ns : List String} {typename : Typename} {parent : Option TypeExpr}
      {isVirtual : Bool} {template : Option Template} {span : Span}
      (hn : typename.WellFormed false) (hp : ∀ t ∈ parent, t.WellFormed false)
      (ht : ∀ t ∈ template, t.WellFormed) :
      WellFormed ns
        (.forward ⟨typename.name, typename, parent, isVirtual, template, ns, span, none⟩)
  | enumeration {ns : List String} {d : EnumDecl} (hd : d.WellFormed ns) :
      WellFormed ns (.enumeration d)
  | var {ns : List String} {type : TypeExpr} {name : String} {default? : Option String}
      {template : Option Template} {span : Span} (htype : type.WellFormed false)
      (hn : isIdentifier name = true) (hd : WellFormedDefault default?)
      (ht : ∀ t ∈ template, t.WellFormed) :
      WellFormed ns (.var ⟨type, name, default?, template, ns, none, span, none⟩)
  | function {ns : List String} {name : String} {result : ReturnType} {args : List Argument}
      {template : Option Template} {span : Span} (hn : isIdentifier name = true)
      (hr : result.WellFormed) (ha : WellFormedArguments args) (ht : ∀ t ∈ template, t.WellFormed) :
      WellFormed ns (.function ⟨name, result, args, template, ns, span, none⟩)
  | typedef {ns : List String} {type : TypeExpr} {newName : String} {span : Span}
      (htype : type.WellFormed false) (hargs : type.isTemplated = true)
      (hplain : type.isConst = false ∧ type.indirection = none)
      (hn : isIdentifier newName = true) :
      WellFormed ns (.typedef ⟨type.typename, newName, ns, span⟩)

/-- A whole file. -/
def Interface.WellFormed (m : Interface) : Prop := ∀ d ∈ m.content, d.WellFormed []

end TemplateIdl
