import TemplateIdl.Decl

/-!
# Index — what typedefs can name

- `Target`, a declaration that a typedef can name
- `TypedefIndex`, the targets of an interface by their full paths
- `TypedefIndex.ofContent`, the index of some declarations and of the namespaces in them
- `TypedefIndex.resolve`, the targets that a path names as seen from a scope
-/

namespace TemplateIdl

/-- A declaration that a typedef can name. -/
inductive Target where
  | cls (d : ClassDecl)
  | function (d : FunctionDecl)
  | forward (d : ForwardDecl)
deriving DecidableEq, Inhabited

namespace Target

/-- Whether the target is a class. -/
def isClass : Target → Bool
  | cls _ => true
  | _ => false

/-- The declared name. -/
def name : Target → String
  | cls d => d.name
  | function d => d.name
  | forward d => d.name

/-- Where the target is declared. -/
def span : Target → Span
  | cls d => d.span
  | function d => d.span
  | forward d => d.span

/-- Namespaces written in the declaration itself. -/
def qualifier : Target → List String
  | forward d => d.typename.namespaces
  | _ => []

/-- The path of a target declared in `scope`. -/
def path (scope : List String) (t : Target) : List String :=
  scope ++ t.qualifier ++ [t.name]

/-- The target that a declaration is. -/
def ofDeclaration? : Declaration → Option Target
  | .cls d => some (cls d)
  | .function d => some (function d)
  | .forward d => some (forward d)
  | _ => none

end Target

/-- Targets by their full paths. Targets of one path stand in the order of the file. -/
structure TypedefIndex where
  entries : List (List String × List Target)
deriving DecidableEq, Inhabited

namespace TypedefIndex

/-- No targets. -/
def empty : TypedefIndex := ⟨[]⟩

/-- The entries with `target` behind the others of its path. -/
def insertEntry (path : List String) (target : Target) :
    List (List String × List Target) → List (List String × List Target)
  | [] => [(path, [target])]
  | e :: es =>
    if e.1 = path then (e.1, e.2 ++ [target]) :: es else e :: insertEntry path target es

/-- The index with another target. -/
def insert (x : TypedefIndex) (path : List String) (target : Target) : TypedefIndex :=
  ⟨insertEntry path target x.entries⟩

/-- The targets of a full path; none if the path has no entry. -/
def targets? (x : TypedefIndex) (path : List String) : Option (List Target) :=
  (x.entries.find? fun e => e.1 == path).map Prod.snd

mutual

/-- The index with the targets in a declaration of `scope`. -/
def insertDeclaration (x : TypedefIndex) (scope : List String) : Declaration → TypedefIndex
  | .space name content _ => insertContent x (scope ++ [name]) content
  | .cls d => x.insert (Target.path scope (.cls d)) (.cls d)
  | .function d => x.insert (Target.path scope (.function d)) (.function d)
  | .forward d => x.insert (Target.path scope (.forward d)) (.forward d)
  | .inclusion _ | .enumeration _ | .var _ | .typedef _ => x

/-- The index with the targets in the declarations of `scope`. -/
def insertContent (x : TypedefIndex) (scope : List String) : List Declaration → TypedefIndex
  | [] => x
  | d :: ds => insertContent (insertDeclaration x scope d) scope ds

end

/-- The targets in the declarations of a file. -/
def ofContent (content : Content) : TypedefIndex := insertContent empty [] content

/-- The targets among which a typedef chooses: a class hides everything else. -/
def visible (targets : List Target) : List Target :=
  if targets.any Target.isClass then targets.filter Target.isClass else targets

/-- The targets that `path` names in the scopes given, of which the first one with a target
decides. -/
def resolveIn (x : TypedefIndex) (path : List String) : List (List String) → List Target
  | [] => []
  | scope :: scopes =>
    match x.targets? (scope ++ path) with
    | some found => visible found
    | none => resolveIn x path scopes

/-- A scope and the scopes around it, from the inside to the outside. -/
def outward (scope : List String) : List (List String) :=
  (List.range (scope.length + 1)).reverse.map fun n => scope.take n

/-- The targets that `path` names as seen from `scope`: the innermost scope with a target
decides. -/
def resolve (x : TypedefIndex) (scope path : List String) : List Target :=
  x.resolveIn path (outward scope)

end TypedefIndex

end TemplateIdl
