import TemplateIdl.Decl.Class

/-!
# Declarations — the content of interface files

- `Declaration`, anything that can stand in a namespace, with its text
- `Content`, the declarations of a namespace in order, and looking things up in it
- `Interface`, the content of a whole file
-/

namespace TemplateIdl

/-- Anything that can stand in a namespace. -/
inductive Declaration where
  | inclusion (d : IncludeDecl)
  | space (name : String) (content : List Declaration) (span : Span)
  | cls (d : ClassDecl)
  | forward (d : ForwardDecl)
  | enumeration (d : EnumDecl)
  | var (d : VariableDecl)
  | function (d : FunctionDecl)
  | typedef (d : TypedefDecl)
deriving Inhabited

namespace Declaration

/-- The declared name; the path of an include. -/
def name : Declaration → String
  | inclusion d => d.path
  | space name _ _ => name
  | cls d => d.name
  | forward d => d.name
  | enumeration d => d.name
  | var d => d.name
  | function d => d.name
  | typedef d => d.newName

/-- Where the declaration stands. -/
def span : Declaration → Span
  | inclusion d => d.span
  | space _ _ span => span
  | cls d => d.span
  | forward d => d.span
  | enumeration d => d.span
  | var d => d.span
  | function d => d.span
  | typedef d => d.span

/-- What is declared, in words. -/
def kindText : Declaration → String
  | inclusion _ => "include"
  | space _ _ _ => "namespace"
  | cls _ => "class"
  | forward _ => "forward declaration"
  | enumeration _ => "enum"
  | var _ => "variable"
  | function _ => "function"
  | typedef _ => "typedef"

/-- Whether the declaration is still to be expanded. -/
def isTemplated : Declaration → Bool
  | cls d => d.template.isSome
  | forward d => d.template.isSome
  | var d => d.template.isSome
  | function d => d.template.isSome
  | typedef _ => true
  | inclusion _ | space _ _ _ | enumeration _ => false

/-! ## Text -/

mutual

/-- A declaration as it is written. -/
def text : Declaration → String
  | inclusion d => d.text
  | space name content _ => "namespace " ++ name ++ " \x7b\n" ++ contentText content ++ "\x7d"
  | cls d => d.text
  | forward d => d.text
  | enumeration d => d.text
  | var d => d.text
  | function d => d.text
  | typedef d => d.text

/-- Declarations as they are written, each behind a line of its own. -/
def contentText : List Declaration → String
  | [] => ""
  | d :: ds => text d ++ "\n" ++ contentText ds

end

theorem contentText_eq_joinLines (ds : List Declaration) :
    contentText ds = joinLines (ds.map text) := by
  induction ds with
  | nil => rfl
  | cons d ds ih => simp [contentText, ih]

/-! ## Equality is decidable -/

mutual

/-- Decides whether two declarations are the same. -/
def decEq : (a b : Declaration) → Decidable (a = b)
  | inclusion a, b =>
    match b with
    | inclusion b => decidable_of_iff (a = b) (by simp)
    | space .. | cls _ | forward _ | enumeration _ | var _ | function _ | typedef _ =>
      isFalse nofun
  | space name content span, b =>
    match b with
    | space name' content' span' =>
      match decEqList content content' with
      | isTrue h => decidable_of_iff (name = name' ∧ span = span') (by subst h; simp)
      | isFalse h => isFalse fun e => h (by injection e)
    | inclusion _ | cls _ | forward _ | enumeration _ | var _ | function _ | typedef _ =>
      isFalse nofun
  | cls a, b =>
    match b with
    | cls b => decidable_of_iff (a = b) (by simp)
    | inclusion _ | space .. | forward _ | enumeration _ | var _ | function _ | typedef _ =>
      isFalse nofun
  | forward a, b =>
    match b with
    | forward b => decidable_of_iff (a = b) (by simp)
    | inclusion _ | space .. | cls _ | enumeration _ | var _ | function _ | typedef _ =>
      isFalse nofun
  | enumeration a, b =>
    match b with
    | enumeration b => decidable_of_iff (a = b) (by simp)
    | inclusion _ | space .. | cls _ | forward _ | var _ | function _ | typedef _ =>
      isFalse nofun
  | var a, b =>
    match b with
    | var b => decidable_of_iff (a = b) (by simp)
    | inclusion _ | space .. | cls _ | forward _ | enumeration _ | function _ | typedef _ =>
      isFalse nofun
  | function a, b =>
    match b with
    | function b => decidable_of_iff (a = b) (by simp)
    | inclusion _ | space .. | cls _ | forward _ | enumeration _ | var _ | typedef _ =>
      isFalse nofun
  | typedef a, b =>
    match b with
    | typedef b => decidable_of_iff (a = b) (by simp)
    | inclusion _ | space .. | cls _ | forward _ | enumeration _ | var _ | function _ =>
      isFalse nofun

/-- Decides whether two lists of declarations are the same. -/
def decEqList : (as bs : List Declaration) → Decidable (as = bs)
  | [], [] => isTrue rfl
  | [], _ :: _ => isFalse nofun
  | _ :: _, [] => isFalse nofun
  | a :: as, b :: bs =>
    match decEq a b, decEqList as bs with
    | isTrue h, isTrue h' => isTrue (by rw [h, h'])
    | isFalse h, _ => isFalse fun e => h (List.cons.inj e).1
    | _, isFalse h => isFalse fun e => h (List.cons.inj e).2

end

instance : DecidableEq Declaration := decEq

end Declaration

/-- The declarations of a namespace in order. -/
abbrev Content := List Declaration

namespace Content

/-- Names of the declarations in order. -/
def names (c : Content) : List String := c.map Declaration.name

/-- The classes in order. -/
def classes (c : Content) : List ClassDecl :=
  c.filterMap fun
    | .cls d => some d
    | _ => none

/-- The functions in order. -/
def functions (c : Content) : List FunctionDecl :=
  c.filterMap fun
    | .function d => some d
    | _ => none

/-- The namespaces in order, each with its name and content. Namespaces of one name stay
apart. -/
def spaces (c : Content) : List (String × Content) :=
  c.filterMap fun
    | .space name content _ => some (name, content)
    | _ => none

/-- The first class of a name. -/
def class? (c : Content) (name : String) : Option ClassDecl :=
  c.classes.find? (·.name == name)

/-- The first function of a name. -/
def function? (c : Content) (name : String) : Option FunctionDecl :=
  c.functions.find? (·.name == name)

/-- The content of the first namespace of a name. -/
def space? (c : Content) (name : String) : Option Content :=
  (c.spaces.find? (·.1 == name)).map Prod.snd

end Content

/-- The content of a whole interface file. -/
structure Interface where
  content : Content
deriving DecidableEq, Inhabited

/-- An interface file with the given content. -/
def Interface.text (m : Interface) : String := Declaration.contentText m.content

end TemplateIdl
