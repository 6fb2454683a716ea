import TemplateIdl.Proofs.Decl.Spans

/-!
# Relocate — declarations put somewhere else

* `Declaration.relocate`, a declaration with another place in the text and in the namespaces: one
  function is applied to all spans and one to all paths of namespaces, those of owners included;
* `Declaration.relocate_id` and `Declaration.relocate_default`, staying and forgetting the places;
* `ClassHead.relocate_close`, a relocated class is that of its relocated members.
-/

namespace TemplateIdl

section

variable (f : Span → Span) (path : List String → List String)

/-! ## Members -/

/-- The name of a type that stands in other namespaces. -/
def Typename.relocate (t : Typename) : Typename := { t with namespaces := path t.namespaces }

/-- A constructor somewhere else. -/
def Constructor.relocate (d : Constructor) : Constructor :=
  { d with owner := d.owner.relocate path, span := f d.span }

/-- A method somewhere else. -/
def Method.relocate (d : Method) : Method :=
  { d with owner := d.owner.relocate path, span := f d.span }

/-- A static method somewhere else. -/
def StaticMethod.relocate (d : StaticMethod) : StaticMethod :=
  { d with owner := d.owner.relocate path, span := f d.span }

/-- A special method somewhere else. -/
def SpecialMethod.relocate (d : SpecialMethod) : SpecialMethod :=
  { d with owner := d.owner.relocate path, span := f d.span }

/-- An operator method somewhere else. -/
def OperatorMethod.relocate (d : OperatorMethod) : OperatorMethod :=
  { d with owner := d.owner.relocate path, span := f d.span }

/-- A variable or property somewhere else. -/
def VariableDecl.relocate (d : VariableDecl) : VariableDecl :=
  { d with
    namespaces := path d.namespaces
    owner := d.owner.map (Typename.relocate path)
    span := f d.span }

/-- An enumeration somewhere else. -/
def EnumDecl.relocate (d : EnumDecl) : EnumDecl :=
  { d with namespaces := path d.namespaces, span := f d.span }

/-- A member somewhere else. -/
def Member.relocate : Member → Member
  | .ctor d => .ctor (d.relocate f path)
  | .method d => .method (d.relocate f path)
  | .static d => .static (d.relocate f path)
  | .special d => .special (d.relocate f path)
  | .operator d => .operator (d.relocate f path)
  | .property d => .property (d.relocate f path)
  | .enumeration d => .enumeration (d.relocate f path)

/-! ## Classes -/

/-- The head of a class that stands in other namespaces. -/
def ClassHead.relocate (h : ClassHead) : ClassHead := { h with namespaces := path h.namespaces }

/-- A class somewhere else, with its members. -/
def ClassDecl.relocate (c : ClassDecl) : ClassDecl :=
  { c with
    ctors := c.ctors.map (Constructor.relocate f path)
    methods := c.methods.map (Method.relocate f path)
    statics := c.statics.map (StaticMethod.relocate f path)
    specials := c.specials.map (SpecialMethod.relocate f path)
    operators := c.operators.map (OperatorMethod.relocate f path)
    properties := c.properties.map (VariableDecl.relocate f path)
    enums := c.enums.map (EnumDecl.relocate f path)
    namespaces := path c.namespaces
    span := f c.span }

theorem filterMap_relocate {α : Type} {pick : Member → Option α} {move : α → α}
    (h : ∀ m, pick (m.relocate f path) = (pick m).map move) (ms : List Member) :
    (ms.map (Member.relocate f path)).filterMap pick = (ms.filterMap pick).map move := by
  rw [List.filterMap_map, List.map_filterMap]
  exact List.filterMap_congr fun m _ => h m

/-- The places of members do not matter for how they are grouped. -/
theorem ClassHead.relocate_close (h : ClassHead) (ms : List Member) (span : Span) :
    (h.close ms span).relocate f path =
      (h.relocate path).close (ms.map (Member.relocate f path)) (f span) := by
  rw [close, close, ClassDecl.relocate]
  congr 1
  all_goals
    refine (filterMap_relocate f path ?_ ms).symm
    intro m
    cases m <;> rfl

/-! ## Declarations -/

/-- A forward declaration somewhere else. -/
def ForwardDecl.relocate (d : ForwardDecl) : ForwardDecl :=
  { d with namespaces := path d.namespaces, span := f d.span }

/-- A function somewhere else. -/
def FunctionDecl.relocate (d : FunctionDecl) : FunctionDecl :=
  { d with namespaces := path d.namespaces, span := f d.span }

/-- A typedef somewhere else. -/
def TypedefDecl.relocate (d : TypedefDecl) : TypedefDecl :=
  { d with namespaces := path d.namespaces, span := f d.span }

namespace Declaration

mutual

/-- A declaration somewhere else, with all that it contains. -/
def relocate : Declaration → Declaration
  | inclusion d => .inclusion { d with span := f d.span }
  | space name content span => .space name (relocateContent content) (f span)
  | cls d => .cls (d.relocate f path)
  | forward d => .forward (d.relocate f path)
  | enumeration d => .enumeration (d.relocate f path)
  | var d => .var (d.relocate f path)
  | function d => .function (d.relocate f path)
  | typedef d => .typedef (d.relocate f path)

/-- Declarations somewhere else. -/
def relocateContent : List Declaration → List Declaration
  | [] => []
  | d :: ds => relocate d :: relocateContent ds

end

theorem relocateContent_eq_map (ds : List Declaration) :
    relocateContent f path ds = ds.map (relocate f path) := by
  induction ds with
  | nil => rfl
  | cons d ds ih => rw [relocateContent, ih, List.map_cons]

end Declaration

end

/-! ## Special relocations -/

/-- Staying in the same namespaces. -/
theorem VariableDecl.relocate_path_id (f : Span → Span) (d : VariableDecl) :
    d.relocate f id = { d with span := f d.span } := by
  obtain ⟨type, name, default?, template, namespaces, _ | owner, span, provenance⟩ := d <;> rfl

theorem ClassDecl.relocate_id (c : ClassDecl) : c.relocate id id = c := by
  have hvar : VariableDecl.relocate id id = id := funext fun d => d.relocate_path_id id
  have hctor : Constructor.relocate id id = id := rfl
  have hmethod : Method.relocate id id = id := rfl
  have hstatic : StaticMethod.relocate id id = id := rfl
  have hspecial : SpecialMethod.relocate id id = id := rfl
  have hoperator : OperatorMethod.relocate id id = id := rfl
  have henum : EnumDecl.relocate id id = id := rfl
  simp only [relocate, hvar, hctor, hmethod, hstatic, hspecial, hoperator, henum, List.map_id, id]

theorem ClassDecl.relocate_default (c : ClassDecl) :
    c.relocate (fun _ => default) id = c.eraseSpans := by
  have hvar : VariableDecl.relocate (fun _ => default) id = VariableDecl.eraseSpans :=
    funext fun d => d.relocate_path_id _
  rw [relocate, eraseSpans, hvar]
  rfl

namespace Declaration

mutual

theorem relocate_id (d : Declaration) : d.relocate id id = d := by
  match d with
  | inclusion d => rfl
  | space name content span => rw [relocate, relocateContent_id content]; rfl
  | cls d => rw [relocate, d.relocate_id]
  | forward d => rfl
  | enumeration d => rfl
  | var d => rw [relocate, d.relocate_path_id]; rfl
  | function d => rfl
  | typedef d => rfl

theorem relocateContent_id (ds : List Declaration) : relocateContent id id ds = ds := by
  match ds with
  | [] => rfl
  | d :: ds => rw [relocateContent, relocate_id d, relocateContent_id ds]

end

mutual

theorem relocate_default (d : Declaration) : d.relocate (fun _ => default) id = d.eraseSpans := by
  match d with
  | inclusion d => rfl
  | space name content span => rw [relocate, eraseSpans, relocateContent_default content]
  | cls d => rw [relocate, eraseSpans, d.relocate_default]
  | forward d => rfl
  | enumeration d => rfl
  | var d => rw [relocate, eraseSpans, d.relocate_path_id]; rfl
  | function d => rfl
  | typedef d => rfl

theorem relocateContent_default (ds : List Declaration) :
    relocateContent (fun _ => default) id ds = eraseContentSpans ds := by
  match ds with
  | [] => rfl
  | d :: ds =>
    rw [relocateContent, eraseContentSpans, relocate_default d, relocateContent_default ds]

end

end Declaration

end TemplateIdl
