import TemplateIdl.Expand.Registry

/-!
# Expansion — a result and the names generated on the way to it

- `Expansion`, the generated names registered in order, and a value or the error that ended it
- `Expansion.register` and `Expansion.forEach`, registering a name and expanding several things
- `Expansion.settle`, the outcome once the names are checked for collisions
-/

namespace TemplateIdl

/-- The course of an expansion. -/
structure Expansion (α : Type) where
  /-- Generated names in order, up to the error if there is one. -/
  log : List Registration
  outcome : Except ExpansionError α

namespace Expansion

variable {α β : Type}

instance : Monad Expansion where
  pure a := ⟨[], .ok a⟩
  bind x f :=
    match x.outcome with
    | .ok a => ⟨x.log ++ (f a).log, (f a).outcome⟩
    | .error e => ⟨x.log, .error e⟩

/-- Something that generates no names. -/
def lift (x : Except ExpansionError α) : Expansion α := ⟨[], x⟩

/-- Registers a generated name. -/
def register (r : Registration) : Expansion Unit := ⟨[r], .ok ()⟩

/-- Expands several things in order. -/
def forEach (f : α → Expansion β) : List α → Expansion (List β)
  | [] => pure []
  | a :: as => do
    let b ← f a
    let bs ← forEach f as
    pure (b :: bs)

/-- The outcome, unless one of the names is refused: all of them came before the error that
ended the expansion. -/
def settle (policy : CollisionPolicy) (x : Expansion α) : Except ExpansionError α :=
  match (NameRegistry.empty policy).registerAll x.log with
  | .error e => .error e
  | .ok _ => x.outcome

/-! ## Sequencing -/

@[simp] theorem outcome_pure (a : α) : (pure a : Expansion α).outcome = .ok a := rfl

@[simp] theorem log_pure (a : α) : (pure a : Expansion α).log = [] := rfl

@[simp] theorem outcome_bind (x : Expansion α) (f : α → Expansion β) :
    (x >>= f).outcome = x.outcome.bind fun a => (f a).outcome := by
  obtain ⟨log, outcome⟩ := x
  cases outcome <;> rfl

end Expansion

end TemplateIdl
