import TemplateIdl.Expand.Interface
import TemplateIdl.Proofs.Expand.Registry

/-!
# Policy — what the collision policy changes

An expansion keeps a log, and its names are checked once it has ended. The same comes out if each
name is checked at once, by a registry that is handed from step to step.

* `Expansion.run`, an expansion that starts with a registry and leaves one behind;
* `Expansion.run_bind`, `Expansion.run_register` and `Expansion.run_lift`, the registry is handed
  from step to step, and a refused name ends the run where it is registered;
* `Threaded` and `Expansion.threaded`, the same as a map of monads;
* `threaded_expandMember`, `threaded_expandListed`, `threaded_expandTypedef` and
  `threaded_expandContent`, the parts of an expansion with their names checked on the way;
* `Interface.instantiate_eq_threaded`, a whole file is expanded like that;
* `Expansion.run_lenient` and `Expansion.run_strict`, the result of a run under each policy;
* `Interface.instantiate_policy`, so a policy decides about collisions and about nothing else.
-/

namespace TemplateIdl

namespace NameRegistry

theorem registerAll_append (g : NameRegistry) (log log' : List Registration) :
    g.registerAll (log ++ log') = (g.registerAll log).bind fun g' => g'.registerAll log' := by
  induction log generalizing g with
  | nil => rfl
  | cons r log ih =>
    simp only [List.cons_append, registerAll]
    cases g.conflict? r with
    | some e => rfl
    | none => exact ih (g.record r)

end NameRegistry

namespace Expansion

variable {α β : Type}

/-! ## Expansions on a registry -/

/-- The result of an expansion with the registry that it leaves behind. -/
def run (x : Expansion α) (g : NameRegistry) : Except ExpansionError (α × NameRegistry) :=
  (g.registerAll x.log).bind fun g' => x.outcome.map fun a => (a, g')

theorem run_pure (a : α) (g : NameRegistry) : (pure a : Expansion α).run g = .ok (a, g) := rfl

theorem run_lift (x : Except ExpansionError α) (g : NameRegistry) :
    (lift x).run g = x.map fun a => (a, g) := rfl

/-- A refused name ends the expansion, and any other name is recorded. -/
theorem run_register (r : Registration) (g : NameRegistry) :
    (register r).run g =
      match g.conflict? r with
      | some e => .error e
      | none => .ok ((), g.record r) := by
  simp only [run, register, NameRegistry.registerAll]
  cases g.conflict? r with
  | some e => rfl
  | none => rfl

/-- The second expansion goes on with the registry of the first one, unless that one ended with an
error: then nothing more is registered. -/
theorem run_bind (x : Expansion α) (f : α → Expansion β) (g : NameRegistry) :
    (x >>= f).run g = (x.run g).bind fun p => (f p.1).run p.2 := by
  obtain ⟨log, outcome⟩ := x
  cases outcome with
  | error e =>
    show (g.registerAll log).bind (fun _ => .error e) = _
    simp only [run]
    cases g.registerAll log with
    | error e' => rfl
    | ok g' => rfl
  | ok a =>
    show (g.registerAll (log ++ (f a).log)).bind _ = _
    rw [NameRegistry.registerAll_append]
    simp only [run]
    cases g.registerAll log with
    | error e' => rfl
    | ok g' => rfl

/-- The names are checked at the end of an expansion as they would be on the way. -/
theorem settle_eq_run (policy : CollisionPolicy) (x : Expansion α) :
    x.settle policy = (x.run (.empty policy)).map Prod.fst := by
  unfold settle run
  cases (NameRegistry.empty policy).registerAll x.log with
  | error e => rfl
  | ok g =>
    cases x.outcome with
    | error e => rfl
    | ok a => rfl

end Expansion

/-! ## Names that are checked at once -/

/-- Steps that are handed a registry and leave one behind, or end with an error. -/
abbrev Threaded := StateT NameRegistry (Except ExpansionError)

/-- Registers a name at once: a refused name is an error. -/
def NameRegistry.enter (r : Registration) : Threaded Unit := fun g =>
  match g.conflict? r with
  | some e => .error e
  | none => .ok ((), g.record r)

namespace Expansion

variable {α β : Type}

/-- The expansion in which each name is checked where it is registered. -/
def threaded (x : Expansion α) : Threaded α := x.run

theorem threaded_pure (a : α) : (pure a : Expansion α).threaded = pure a := funext (run_pure a)

theorem threaded_lift (x : Except ExpansionError α) : (lift x).threaded = liftM x := by
  funext g
  rw [threaded, run_lift]
  cases x with
  | error e => rfl
  | ok a => rfl

theorem threaded_register (r : Registration) : (register r).threaded = NameRegistry.enter r :=
  funext (run_register r)

theorem threaded_bind (x : Expansion α) (f : α → Expansion β) :
    (x >>= f).threaded = x.threaded >>= fun a => (f a).threaded :=
  funext (run_bind x f)

theorem threaded_forEach (f : α → Expansion β) (as : List α) :
    (forEach f as).threaded = as.mapM fun a => (f a).threaded := by
  induction as with
  | nil => exact threaded_pure []
  | cons a as ih =>
    rw [forEach, List.mapM_cons, threaded_bind]
    simp only [threaded_bind, threaded_pure, ih]

end Expansion

section Members

variable {μ : Type} [TemplatedMember μ]

/-- Each instance of a member is registered in front of its types, so a refused name comes before
an error in them. -/
theorem threaded_expandMember (x : ClassContext) (base : μ → String) (m : μ) :
    (expandMember x base m).threaded =
      match TemplatedMember.template m with
      | none => do
        let d ← (concreteMember x x.substitution (base m) none m).threaded
        pure [d]
      | some t => t.combinations.mapM fun bindings => (do
        let name := generatedName (base m) bindings
        NameRegistry.enter
          ⟨x.scope, name, describe (TemplatedMember.name m) bindings, TemplatedMember.span m⟩
        (concreteMember x (x.substitution.extend t.names bindings) name
          (some ⟨TemplatedMember.name m, bindings⟩) m).threaded) := by
  unfold expandMember
  cases TemplatedMember.template m with
  | none => simp only [Expansion.threaded_bind, Expansion.threaded_pure]
  | some t =>
    simp only [Expansion.threaded_forEach, Expansion.threaded_bind, Expansion.threaded_register]

theorem threaded_expandMembers (x : ClassContext) (base : μ → String) (ms : List μ) :
    (expandMembers x base ms).threaded = (do
      let groups ← ms.mapM fun m => (expandMember x base m).threaded
      pure groups.flatten) := by
  simp only [expandMembers, Expansion.threaded_bind, Expansion.threaded_forEach,
    Expansion.threaded_pure]

end Members

/-- Each listed instance is registered behind all names of its members. -/
theorem threaded_expandListed (scope : List String) (d : Declaration) (template : Option Template)
    (make : List TypeExpr → Expansion Declaration) :
    (expandListed scope d template make).threaded =
      (combinationsOf template).mapM fun bindings => (do
        let x ← (make bindings).threaded
        NameRegistry.enter ⟨scope, x.name, describe d.name bindings, d.span⟩
        pure x) := by
  simp only [expandListed, Expansion.threaded_forEach, Expansion.threaded_bind,
    Expansion.threaded_register, Expansion.threaded_pure]

/-- The name of a typedef is registered where the typedef stands, behind the names of the members
of its instance. -/
theorem threaded_expandTypedef (index : TypedefIndex) (d : TypedefDecl) :
    (expandTypedef index d).threaded = (do
      let target ← (liftM (index.target d) : Threaded Target)
      let x ← (target.expand d.span d.target.args d.newName).threaded
      NameRegistry.enter
        ⟨d.namespaces, d.newName, describe target.name d.target.args, d.span⟩
      pure x) := by
  simp only [expandTypedef, Expansion.threaded_bind, Expansion.threaded_lift,
    Expansion.threaded_register, Expansion.threaded_pure]

/-- Each declaration goes on with the names that the declarations in front of it have left. -/
theorem threaded_expandContent (index : TypedefIndex) (scope : List String) (ds : Content) :
    (expandContent index scope ds).threaded = (do
      let blocks ← ds.mapM fun d => (expandDeclaration index scope d).threaded
      pure blocks.flatten) := by
  induction ds with
  | nil => exact Expansion.threaded_pure []
  | cons d ds ih =>
    simp only [expandContent, Expansion.threaded_bind, Expansion.threaded_pure, ih,
      List.mapM_cons, bind_assoc, pure_bind, List.flatten_cons]

/-- A file is expanded with a registry that is empty at first and is handed from declaration to
declaration. -/
theorem Interface.instantiate_eq_threaded (policy : CollisionPolicy) (m : Interface) :
    m.instantiate policy =
      ((expandContent (.ofContent m.content) [] m.content).threaded.run' (.empty policy)).map
        Interface.mk := by
  rw [instantiate, Expansion.settle_eq_run]
  rfl

namespace Expansion

variable {α β : Type}

/-! ## Results under each policy -/

variable {g : NameRegistry}

/-- Where no name is refused, the registry does not show in the result. -/
theorem run_lenient (hp : g.policy ≠ .error) (x : Expansion α) :
    (x.run g).map Prod.fst = x.outcome := by
  obtain ⟨g', hg'⟩ := NameRegistry.exists_registerAll_of_ne hp x.log
  rw [run, hg']
  cases x.outcome with
  | error e => rfl
  | ok a => rfl

/-- Under any policy, a run gives the result of the expansion or reports a collision. -/
theorem run_strict (x : Expansion α) :
    (x.run g).map Prod.fst = x.outcome ∨ ∃ name first second span,
      (x.run g).map Prod.fst = .error ⟨.nameCollision name first second, span⟩ := by
  unfold run
  cases hg : g.registerAll x.log with
  | error e =>
    obtain ⟨r, -, first, -, rfl, -⟩ := NameRegistry.exists_of_registerAll_eq_error hg
    exact .inr ⟨r.name, first, r.description, r.span, rfl⟩
  | ok g' =>
    left
    cases x.outcome with
    | error e => rfl
    | ok a => rfl

end Expansion

/-- Whether collisions are ignored or only reported, a file is expanded to the same declarations
or fails with the same error. Where they are refused, that is what comes out, too, unless a
collision is reported. -/
theorem Interface.instantiate_policy (m : Interface) :
    m.instantiate .ignore = m.instantiate .warn ∧
      (m.instantiate .error = m.instantiate .warn ∨ ∃ name first second span,
        m.instantiate .error = .error ⟨.nameCollision name first second, span⟩) := by
  have hrun : ∀ policy, m.instantiate policy =
      (((expandContent (TypedefIndex.ofContent m.content) [] m.content).run
        (.empty policy)).map Prod.fst).map Interface.mk :=
    fun policy => instantiate_eq_threaded policy m
  have hignore : (NameRegistry.empty .ignore).policy ≠ .error := by decide
  have hwarn : (NameRegistry.empty .warn).policy ≠ .error := by decide
  rw [hrun .ignore, hrun .warn, hrun .error, Expansion.run_lenient hignore,
    Expansion.run_lenient hwarn]
  refine ⟨rfl, ?_⟩
  obtain h | ⟨name, first, second, span, h⟩ := Expansion.run_strict (g := .empty .error)
    (expandContent (TypedefIndex.ofContent m.content) [] m.content)
  · left
    rw [h]
  · right
    rw [h]
    exact ⟨name, first, second, span, rfl⟩

end TemplateIdl
