/-!
# Conventions — names that a project always passes by constant reference

- `Conventions`, a table of such names with the namespace that each lives in
- `Conventions.withAlias` and `Conventions.alias?`, registering a name and looking it up
- `Conventions.gtsam`, the table of one project
-/

namespace TemplateIdl

/-- Base names that are always written as constant references, with the namespace that a name
without one belongs to. -/
structure Conventions where
  aliases : List (String × String)
deriving DecidableEq, Inhabited

namespace Conventions

/-- No name is special. -/
def empty : Conventions := ⟨[]⟩

/-- The pairs with `ns` at `name`: in place of an older entry, or else behind the others. -/
def register (name ns : String) : List (String × String) → List (String × String)
  | [] => [(name, ns)]
  | e :: es => if e.1 = name then (e.1, ns) :: es else e :: register name ns es

/-- The table in which `name` belongs to the namespace `ns`. -/
def withAlias (c : Conventions) (name ns : String) : Conventions :=
  ⟨register name ns c.aliases⟩

/-- The namespace of a special name. -/
def alias? (c : Conventions) (name : String) : Option String :=
  (c.aliases.find? fun e => e.1 == name).map Prod.snd

/-- Whether no name is special. -/
def isEmpty (c : Conventions) : Bool := c.aliases.isEmpty

/-- `Matrix` and `Vector` live in `gtsam`. -/
def gtsam : Conventions :=
  (empty.withAlias "Matrix" "gtsam").withAlias "Vector" "gtsam"

@[simp] theorem alias?_empty (name : String) : empty.alias? name = none := rfl

/-- The last registration of a name counts. -/
theorem alias?_withAlias (c : Conventions) (name ns other : String) :
    (c.withAlias name ns).alias? other = if name = other then some ns else c.alias? other := by
  obtain ⟨es⟩ := c
  simp only [alias?, withAlias]
  induction es with
  | nil => by_cases h : name = other <;> simp [register, h]
  | cons e es ih =>
    unfold register
    split
    · next h =>
      subst h
      by_cases h : e.1 = other <;> simp [h]
    · next h =>
      by_cases h' : e.1 = other
      · subst h'
        simp [Ne.symm h]
      · simpa [h'] using ih

end Conventions

end TemplateIdl
