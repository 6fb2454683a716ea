import TemplateIdl.Diagnostic.Expansion

/-!
# Registry — which instance generated a name

- `CollisionPolicy`, what becomes of a name that two instances generate
- `Registration`, the name that an instance generates
- `NameRegistry`, the names so far; the first registration of a name stays
- `NameRegistry.conflict?` and `NameRegistry.record`, whether a registration is refused and how it
  is kept
- `NameRegistry.registerAll`, the first refusal among several
-/

namespace TemplateIdl

/-- What becomes of a name that two different instances generate in one scope. -/
inductive CollisionPolicy where
  /-- Nobody is told, and no names are kept. -/
  | ignore
  /-- Both instances are kept. -/
  | warn
  /-- The second instance is refused. -/
  | error
deriving DecidableEq, Inhabited

/-- The name that an instance generates. -/
structure Registration where
  /-- The path of the namespaces, and of the class for a member. -/
  scope : List String
  name : String
  /-- What the instance is; instances of one description are the same. -/
  description : String
  span : Span
deriving DecidableEq, Inhabited

/-- The names generated so far. -/
structure NameRegistry where
  policy : CollisionPolicy
  /-- Scope and name with the description that came first. -/
  names : List ((List String × String) × String)
deriving DecidableEq, Inhabited

namespace NameRegistry

/-- No names. -/
def empty (policy : CollisionPolicy) : NameRegistry := ⟨policy, []⟩

/-- Number of names. -/
def size (g : NameRegistry) : Nat := g.names.length

/-- Whether there is no name. -/
def isEmpty (g : NameRegistry) : Bool := g.names.isEmpty

/-- The description that a name was first registered with. -/
def first? (g : NameRegistry) (scope : List String) (name : String) : Option String :=
  (g.names.find? fun e => e.1 == (scope, name)).map Prod.snd

/-- Why a registration is refused: the policy does not allow collisions, and the name was
registered before with another description. -/
def conflict? (g : NameRegistry) (r : Registration) : Option ExpansionError :=
  match g.policy, g.first? r.scope r.name with
  | .error, some first =>
    if first = r.description then none
    else some ⟨.nameCollision r.name first r.description, r.span⟩
  | _, _ => none

/-- The names with another one, unless it is there already. -/
def record (g : NameRegistry) (r : Registration) : NameRegistry :=
  if g.policy = .ignore ∨ (g.first? r.scope r.name).isSome then g
  else { g with names := g.names ++ [((r.scope, r.name), r.description)] }

/-- Registers several names in order, up to the first refusal. -/
def registerAll (g : NameRegistry) : List Registration → Except ExpansionError NameRegistry
  | [] => .ok g
  | r :: rs =>
    match g.conflict? r with
    | some e => .error e
    | none => registerAll (g.record r) rs

/-- What is refused is not kept, either: the name is there already. -/
theorem record_of_conflict? {g : NameRegistry} {r : Registration} {e : ExpansionError}
    (h : g.conflict? r = some e) : g.record r = g := by
  unfold conflict? at h
  split at h
  · next hf => simp [record, hf]
  · cases h

end NameRegistry

end TemplateIdl
