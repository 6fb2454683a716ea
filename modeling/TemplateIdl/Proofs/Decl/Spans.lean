import TemplateIdl.Proofs.Decl.Words

/-!
# Spans — declarations without their places

* `Member.eraseSpans`, `ClassDecl.eraseSpans`, `Declaration.eraseSpans` and
  `Interface.eraseSpans`, which put everything at the same place;
* `Interface.text_eraseSpans`, the text does not depend on places;
* `ClassHead.eraseSpans_close`, a class is its members up to their places.
-/

namespace TemplateIdl

/-! ## Members -/

/-- A constructor without its place. -/
def Constructor.eraseSpans (d : Constructor) : Constructor := { d with span := default }

/-- A method without its place. -/
def Method.eraseSpans (d : Method) : Method := { d with span := default }

/-- A static method without its place. -/
def StaticMethod.eraseSpans (d : StaticMethod) : StaticMethod := { d with span := default }

/-- A special method without its place. -/
def SpecialMethod.eraseSpans (d : SpecialMethod) : SpecialMethod := { d with span := default }

/-- An operator method without its place. -/
def OperatorMethod.eraseSpans (d : OperatorMethod) : OperatorMethod := { d with span := default }

/-- A variable without its place. -/
def VariableDecl.eraseSpans (d : VariableDecl) : VariableDecl := { d with span := default }

/-- An enumeration without its place. -/
def EnumDecl.eraseSpans (d : EnumDecl) : EnumDecl := { d with span := default }

/-- A member without its place. -/
def Member.eraseSpans : Member → Member
  | .ctor d => .ctor d.eraseSpans
  | .method d => .method d.eraseSpans
  | .static d => .static d.eraseSpans
  | .special d => .special d.eraseSpans
  | .operator d => .operator d.eraseSpans
  | .property d => .property d.eraseSpans
  | .enumeration d => .enumeration d.eraseSpans

/-! ## Classes -/

/-- A class without its place and those of its members. -/
def ClassDecl.eraseSpans (c : ClassDecl) : ClassDecl :=
  { c with
    ctors := c.ctors.map Constructor.eraseSpans
    methods := c.methods.map Method.eraseSpans
    statics := c.statics.map StaticMethod.eraseSpans
    specials := c.specials.map SpecialMethod.eraseSpans
    operators := c.operators.map OperatorMethod.eraseSpans
    properties := c.properties.map VariableDecl.eraseSpans
    enums := c.enums.map EnumDecl.eraseSpans
    span := default }

theorem filterMap_map_eraseSpans {α : Type} {pick : Member → Option α} {erase : α → α}
    (h : ∀ m, pick m.eraseSpans = (pick m).map erase) (ms : List Member) :
    (ms.map Member.eraseSpans).filterMap pick = (ms.filterMap pick).map erase := by
  rw [List.filterMap_map, List.map_filterMap]
  exact List.filterMap_congr fun m _ => h m

/-- The places of members do not matter for how they are grouped. -/
theorem ClassHead.eraseSpans_close (h : ClassHead) (ms : List Member) (span : Span) :
    (h.close ms span).eraseSpans = h.close (ms.map Member.eraseSpans) default := by
  rw [close, close, ClassDecl.eraseSpans]
  congr 1
  all_goals
    refine (filterMap_map_eraseSpans ?_ ms).symm
    intro m
    cases m <;> rfl

/-- Members that are grouped already are not moved. -/
theorem ClassHead.close_members (h : ClassHead) (ms : List Member) (span : Span) :
    h.close (h.close ms span).members span = h.close ms span := by
  simp [close, ClassDecl.members, List.filterMap_append, List.filterMap_map]

/-! ## Declarations -/

namespace Declaration

mutual

/-- A declaration without its place and the places in it. -/
def eraseSpans : Declaration → Declaration
  | inclusion d => .inclusion { d with span := default }
  | space name content _ => .space name (eraseContentSpans content) default
  | cls d => .cls d.eraseSpans
  | forward d => .forward { d with span := default }
  | enumeration d => .enumeration d.eraseSpans
  | var d => .var d.eraseSpans
  | function d => .function { d with span := default }
  | typedef d => .typedef { d with span := default }

/-- Declarations without their places. -/
def eraseContentSpans : List Declaration → List Declaration
  | [] => []
  | d :: ds => eraseSpans d :: eraseContentSpans ds

end

theorem eraseContentSpans_eq_map (ds : List Declaration) :
    eraseContentSpans ds = ds.map eraseSpans := by
  induction ds with
  | nil => rfl
  | cons d ds ih => rw [eraseContentSpans, ih, List.map_cons]

end Declaration

/-- A file without places. -/
def Interface.eraseSpans (m : Interface) : Interface :=
  ⟨Declaration.eraseContentSpans m.content⟩

/-! ## Texts -/

theorem ClassDecl.text_eraseSpans (c : ClassDecl) : c.eraseSpans.text = c.text := by
  have htexts : c.eraseSpans.memberTexts = c.memberTexts := by
    simp only [memberTexts, eraseSpans, List.map_map]
    rfl
  rw [text, text, htexts]
  rfl

namespace Declaration

mutual

theorem text_eraseSpans (d : Declaration) : d.eraseSpans.text = d.text := by
  match d with
  | inclusion d => rfl
  | space name content _ => rw [eraseSpans, text, text, contentText_eraseContentSpans content]
  | cls d => exact d.text_eraseSpans
  | forward d => rfl
  | enumeration d => rfl
  | var d => rfl
  | function d => rfl
  | typedef d => rfl

theorem contentText_eraseContentSpans (ds : List Declaration) :
    contentText (eraseContentSpans ds) = contentText ds := by
  match ds with
  | [] => rfl
  | d :: ds =>
    rw [eraseContentSpans, contentText, contentText, text_eraseSpans d,
      contentText_eraseContentSpans ds]

end

end Declaration

/-- The text of a file does not depend on where its declarations stand. -/
theorem Interface.text_eraseSpans (m : Interface) : m.eraseSpans.text = m.text :=
  Declaration.contentText_eraseContentSpans m.content

end TemplateIdl
