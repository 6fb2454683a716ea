import TemplateIdl.Proofs.Grammar.Moves

/-!
# Equation — rules that use themselves satisfy their equations

On the stream of a file no rule runs out of unfoldings, so each of the rules that use themselves
equals its body with itself inside.

* `Parse.Agree`, two rules that do the same to all light streams;
* `Parse.Descending`, a rule that uses itself only behind something that has been read;
* `Parse.typeIn_step`, `Parse.manyWhile_step`, `Parse.commaSeparated_step`,
  `Parse.enumerators_step` and `Parse.declaration_step`, the equations;
* `Parse.Repeats`, items read one behind the other, and `Parse.manyWhile_eq_ok`, which are those
  that a repetition gives.
-/

namespace TemplateIdl

namespace Parse

variable {α β : Type} {x y : Parse α} {f g : α → Parse β} {n : Nat}

/-- Two rules do the same to all streams of files that weigh less than `n`. -/
def Agree (n : Nat) (x y : Parse α) : Prop :=
  ∀ s, s.stop.kind = .eof → s.weight < n → x s = y s

namespace Agree

theorem refl (x : Parse α) : Agree n x x := fun _ _ _ => rfl

theorem bind [hm : Moving x] (hx : Agree n x y) (hf : ∀ a, Agree n (f a) (g a)) :
    Agree n (x >>= f) (y >>= g) := by
  intro s hs hw
  show EStateM.bind x f s = EStateM.bind y g s
  rw [EStateM.bind, EStateM.bind, ← hx s hs hw]
  rcases hr : x s with ⟨a, s1⟩ | ⟨e, s1⟩
  · have hmoves := hm.ok hr
    exact hf a s1 (hmoves.stop_eq ▸ hs) (Nat.lt_of_le_of_lt hmoves.weight_le hw)
  · rfl

/-- Behind a rule, the others may differ. -/
theorem behind [Moving x] (hf : ∀ a, Agree n (f a) (g a)) : Agree n (x >>= f) (x >>= g) :=
  bind (refl x) hf

/-- Behind a rule that reads something, the others may differ on streams of the same weight. -/
theorem strict [hm : Moving x] [hx : Strict x] (hf : ∀ a, Agree n (f a) (g a)) :
    Agree (n + 1) (x >>= f) (x >>= g) := by
  intro s hs hw
  show EStateM.bind x f s = EStateM.bind x g s
  rw [EStateM.bind, EStateM.bind]
  rcases hr : x s with ⟨a, s1⟩ | ⟨e, s1⟩
  · have hlt := hx.weight_lt hs hr
    exact hf a s1 ((hm.ok hr).stop_eq ▸ hs) (by omega)
  · rfl

/-- Behind a token that was read, the others may differ on streams of the same weight. -/
theorem eat {k : Kind} {f g : Bool → Parse β} (hk : k ≠ .eof) (ht : Agree n (f true) (g true))
    (hf : Agree (n + 1) (f false) (g false)) : Agree (n + 1) (eat k >>= f) (eat k >>= g) := by
  intro s hs hw
  have hrun : ∀ h : Bool → Parse β, (Parse.eat k >>= h) s =
      if s.peek.kind = k then h true s.advance else h false s := by
    intro h
    show EStateM.bind (Parse.eat k) h s = _
    rw [EStateM.bind, Parse.eat]
    by_cases hp : s.peek.kind = k <;> simp [hp]
  rw [hrun, hrun]
  split
  · next hp =>
    have hlt := TokenStream.weight_advance_lt_of_kind hs (hp ▸ hk)
    exact ht s.advance ((TokenStream.Moves.advance (.refl s.advance)).stop_eq ▸ hs) (by omega)
  · exact hf s hs hw

theorem ite {c : Prop} [Decidable c] {x' y' : Parse α} (hx : Agree n x y) (hy : Agree n x' y') :
    Agree n (if c then x else x') (if c then y else y') := by
  split
  · exact hx
  · exact hy

end Agree

/-- A rule that uses itself only behind something that has been read. -/
structure Descending {ι : Type} (rule : (ι → Parse α) → ι → Parse α) : Prop where
  moving : ∀ self, (∀ i, Moving (self i)) → ∀ i, Moving (rule self i)
  /-- What the rule uses may differ on streams that are as heavy as the one it starts on. -/
  agree : ∀ f g, (∀ i, Moving (f i)) → ∀ n, (∀ i, Agree n (f i) (g i)) →
    ∀ i, Agree (n + 1) (rule f i) (rule g i)

/-- Such a rule satisfies its own equation. -/
theorem Descending.step {ι : Type} {rule : (ι → Parse α) → ι → Parse α} (h : Descending rule)
    (i : ι) {s : TokenStream} (hs : s.stop.kind = .eof) : fix rule i s = rule (fix rule) i s := by
  refine fix_eq (P := Moving) moving_exhausted h.moving ?_ (moving_fix h.moving) i hs
  intro f g hf hg n hfg i s hs hw
  exact h.agree f g hf n (fun j t ht hlt => hfg j t ht hlt) i s hs (Nat.lt_succ_of_le hw)

/-! ## Repetition -/

/-- The items may differ where the lists are heavier. -/
theorem Agree.unfold {ι : Type} {rule rule' : (ι → Parse α) → ι → Parse α}
    (h : ∀ f g, (∀ i, Agree n (f i) (g i)) → (∀ i, Moving (f i)) →
      ∀ i, Agree n (rule f i) (rule' g i))
    (hmoving : ∀ self, (∀ i, Moving (self i)) → ∀ i, Moving (rule self i)) (k : Nat) (i : ι) :
    Agree n (Parse.unfold rule k i) (Parse.unfold rule' k i) := by
  induction k generalizing i with
  | zero => exact .refl _
  | succ k ih => exact h _ _ ih (moving_unfold hmoving k) i

theorem Agree.commaRule [Moving x] (h : Agree n x y) {f g : Unit → Parse (List α)}
    (hfg : ∀ i, Agree n (f i) (g i)) (hf : ∀ i, Moving (f i)) (i : Unit) :
    Agree n (commaRule x f i) (commaRule y g i) := by
  refine h.bind fun a => .behind fun b => .ite ?_ (.refl _)
  exact (hfg ()).bind fun _ => .refl _

theorem Agree.commaSeparated [Moving x] (h : Agree n x y) :
    Agree n (commaSeparated x) (commaSeparated y) :=
  fun s hs hw => Agree.unfold (fun _ _ hfg hf => h.commaRule hfg hf) (fun _ _ => inferInstance)
    (s.weight + 1) () s hs hw

theorem Agree.manyRule [Moving x] (more : TokenStream → Bool) (h : Agree n x y)
    {f g : Unit → Parse (List α)} (hfg : ∀ i, Agree n (f i) (g i)) (hf : ∀ i, Moving (f i))
    (i : Unit) : Agree n (manyRule more x f i) (manyRule more y g i) := by
  refine .behind fun t => .ite ?_ (.refl _)
  refine h.bind fun a => ?_
  exact (hfg ()).bind fun _ => .refl _

theorem Agree.manyWhile [Moving x] (more : TokenStream → Bool) (h : Agree n x y) :
    Agree n (manyWhile more x) (manyWhile more y) :=
  fun s hs hw => Agree.unfold (fun _ _ hfg hf => h.manyRule more hfg hf)
    (fun _ _ => inferInstance) (s.weight + 1) () s hs hw

section Steps

variable {s : TokenStream}

theorem descending_manyRule [Moving x] [Strict x] (more : TokenStream → Bool) :
    Descending (manyRule more x) where
  moving _ _ := inferInstance
  agree := by
    intro f g hf n hfg i
    refine .behind fun t => .ite ?_ (.refl _)
    refine .strict fun a => ?_
    exact (hfg ()).bind fun _ => .refl _

theorem manyWhile_step [Moving x] [Strict x] (more : TokenStream → Bool)
    (hs : s.stop.kind = .eof) :
    manyWhile more x s = manyRule more x (fun _ => manyWhile more x) () s :=
  (descending_manyRule more).step () hs

/-- Items read one behind the other, in front of each of which there are more. -/
inductive Repeats (more : TokenStream → Bool) (item : Parse α) :
    TokenStream → List α → TokenStream → Prop
  | nil (s : TokenStream) : Repeats more item s [] s
  | cons {s t u : TokenStream} {a : α} {as : List α} (hm : more s = true)
      (ha : item s = .ok a t) (has : Repeats more item t as u) : Repeats more item s (a :: as) u

theorem Repeats.append {more : TokenStream → Bool} {s t u : TokenStream} {as bs : List α}
    (ha : Repeats more x s as t) (hb : Repeats more x t bs u) : Repeats more x s (as ++ bs) u := by
  induction ha with
  | nil => exact hb
  | cons hm ha _ ih => exact .cons hm ha (ih hb)

/-- A repetition that cannot go on goes on from every place on its way. -/
theorem Repeats.split {more : TokenStream → Bool} {s t u : TokenStream} {as bs : List α}
    (ha : Repeats more x s as t) (hb : Repeats more x s bs u) (hu : more u = false) :
    ∃ cs, bs = as ++ cs ∧ Repeats more x t cs u := by
  induction ha generalizing bs with
  | nil => exact ⟨bs, rfl, hb⟩
  | cons hm ha _ ih =>
    cases hb with
    | nil =>
      rw [hm] at hu
      cases hu
    | cons _ hb hbs =>
      rw [ha] at hb
      cases hb
      obtain ⟨cs, rfl, hcs⟩ := ih hbs
      exact ⟨cs, rfl, hcs⟩

theorem Repeats.moves [hx : Moving x] {more : TokenStream → Bool} {s t : TokenStream} {as : List α}
    (h : Repeats more x s as t) : TokenStream.Moves s t := by
  induction h with
  | nil s => exact .refl s
  | cons _ ha _ ih => exact (hx.ok ha).trans ih

/-- A repetition gives the items up to the first place where there are no more. -/
theorem manyWhile_eq_ok [hx : Moving x] [hstrict : Strict x] {more : TokenStream → Bool}
    (hs : s.stop.kind = .eof) {as : List α} {t : TokenStream} :
    manyWhile more x s = .ok as t ↔ Repeats more x s as t ∧ more t = false := by
  have hyes : ∀ {s : TokenStream}, s.stop.kind = .eof → more s = true → manyWhile more x s =
      (x >>= fun a => manyWhile more x >>= fun as => pure (a :: as)) s := by
    intro s hs hm
    rw [manyWhile_step more hs, manyRule, bind_of_ok (rfl : (get : Parse TokenStream) s = .ok s s),
      if_pos hm]
  have hno : ∀ {s : TokenStream}, s.stop.kind = .eof → more s = false →
      manyWhile more x s = .ok [] s := by
    intro s hs hm
    rw [manyWhile_step more hs, manyRule, bind_of_ok (rfl : (get : Parse TokenStream) s = .ok s s),
      hm]
    rfl
  constructor
  · -- each item takes some weight off
    have hweight : ∀ n s, s.stop.kind = .eof → s.weight < n → ∀ as,
        manyWhile more x s = .ok as t → Repeats more x s as t ∧ more t = false := by
      intro n
      induction n with
      | zero => exact fun s _ hn => absurd hn (Nat.not_lt_zero _)
      | succ n ih =>
        intro s hs hn as h
        cases hm : more s with
        | false =>
          rw [hno hs hm] at h
          cases h
          exact ⟨.nil t, hm⟩
        | true =>
          rw [hyes hs hm] at h
          obtain ⟨a, s1, ha, h⟩ := bind_eq_ok.1 h
          obtain ⟨as', s2, has, h⟩ := bind_eq_ok.1 h
          cases h
          have hlt := hstrict.weight_lt hs ha
          obtain ⟨hrest, hstop⟩ := ih s1 ((hx.ok ha).stop_eq ▸ hs) (by omega) as' has
          exact ⟨.cons hm ha hrest, hstop⟩
    exact hweight _ s hs (Nat.lt_succ_self _) as
  · rintro ⟨h, hstop⟩
    induction h with
    | nil s => exact hno hs hstop
    | cons hm ha _ ih =>
      rw [hyes hs hm, bind_of_ok ha, bind_of_ok (ih ((hx.ok ha).stop_eq ▸ hs) hstop)]
      rfl

theorem descending_commaRule [Moving x] : Descending (commaRule x) where
  moving _ _ := inferInstance
  agree := by
    intro f g hf n hfg i
    refine .behind fun a => .eat (by decide) ?_ (.refl _)
    exact (hfg ()).bind fun _ => .refl _

theorem commaSeparated_step [Moving x] (hs : s.stop.kind = .eof) :
    commaSeparated x s = commaRule x (fun _ => commaSeparated x) () s :=
  descending_commaRule.step () hs

theorem descending_enumeratorRule : Descending enumeratorRule where
  moving _ _ := inferInstance
  agree := by
    intro f g hf n hfg i
    have hmore : ∀ name : String, Agree (n + 1)
        (do
          if ← Parse.eat .comma then
            let names ← f ()
            pure (name :: names)
          else pure [name])
        (do
          if ← Parse.eat .comma then
            let names ← g ()
            pure (name :: names)
          else pure [name]) := by
      intro name
      refine .eat (by decide) ?_ (.refl _)
      exact (hfg ()).bind fun _ => .refl _
    refine .behind fun b => .ite (.refl _) ?_
    refine .behind fun name => .behind fun b => .ite ?_ (hmore name)
    exact .behind fun _ => hmore name

theorem enumerators_step (hs : s.stop.kind = .eof) :
    enumerators s = enumeratorRule (fun _ => enumerators) () s :=
  descending_enumeratorRule.step () hs

/-! ## Types and declarations -/

theorem Agree.bracketed [Moving x] (whenEmpty : String) (h : Agree n x y) :
    Agree (n + 1) (bracketed whenEmpty x) (bracketed whenEmpty y) := by
  refine .strict fun opening => .behind fun b => .ite (.refl _) ?_
  exact h.commaSeparated.bind fun _ => .refl _

theorem Agree.typenameWith {arg arg' : Parse TypeExpr} [Moving arg] (inArgs : Bool)
    (h : Agree n arg arg') : Agree (n + 1) (typenameWith arg inArgs) (typenameWith arg' inArgs) := by
  refine .behind fun t => .ite (.refl _) (.ite (.refl _) ?_)
  refine .behind fun p => .behind fun b => .ite ?_ (.refl _)
  exact (h.bracketed _).bind fun _ => .refl _

theorem descending_typeRule : Descending typeRule where
  moving _ _ := inferInstance
  agree := by
    intro f g hf n hfg inArgs
    refine .behind fun isConst => ?_
    exact ((hfg true).typenameWith inArgs).bind fun _ => .refl _

/-- The rule for types satisfies its equation. -/
theorem typeIn_step (inArgs : Bool) (hs : s.stop.kind = .eof) :
    typeIn inArgs s = typeRule typeIn inArgs s :=
  descending_typeRule.step inArgs hs

theorem Agree.space {f g : List String → Parse Declaration} [∀ ns, Moving (f ns)]
    (h : ∀ ns, Agree n (f ns) (g ns)) (ns : List String) :
    Agree (n + 1) (space f ns) (space g ns) := by
  refine .behind fun start => .strict fun name => .behind fun _ => ?_
  exact ((h _).manyWhile _).bind fun _ => .refl _

theorem descending_declarationRule : Descending declarationRule where
  moving _ _ := inferInstance
  agree := by
    intro f g hf n hfg ns
    refine .behind fun t => ?_
    -- only namespaces contain declarations
    split
    case h_2 => exact .space hfg ns
    all_goals exact .refl _

/-- The rule for declarations satisfies its equation. -/
theorem declaration_step (ns : List String) (hs : s.stop.kind = .eof) :
    declaration ns s = declarationRule declaration ns s :=
  descending_declarationRule.step ns hs

end Steps

end Parse

end TemplateIdl
