import Mathlib.Data.List.Forall2
import TemplateIdl.Proofs.Grammar.Run
import TemplateIdl.Proofs.TypeExpr.Words

/-!
# Repeat — rules that use a rule several times

* `Parse.manyRule` and `Parse.commaRule`, what `manyWhile` and `commaSeparated` repeat;
* `Parse.runs_manyWhile` and `Parse.runs_commaSeparated`, reading the words of a list;
* `Parse.yields_manyWhile` and `Parse.yields_commaSeparated`, what the values of a list satisfy.
-/

namespace TemplateIdl

theorem map_eq_map_of_forall₂ {α β γ : Type} {f : α → γ} {g : β → γ} {as : List α} {bs : List β}
    (h : List.Forall₂ (fun a b => f a = g b) as bs) : as.map f = bs.map g := by
  induction h with
  | nil => rfl
  | cons hab _ ih => rw [List.map_cons, List.map_cons, hab, ih]

/-! ## Weights -/

theorem Spells.totalWeight_eq {ts ws : List Token} (h : Spells ts ws) :
    Token.totalWeight ts = Token.totalWeight ws := by
  induction h with
  | nil => rfl
  | same hb _ ih =>
    rw [Token.totalWeight, Token.totalWeight, ih, Token.weight, Token.weight,
      (Token.bare_eq_iff.1 hb).1]
  | shift hk _ _ ih =>
    -- a shift weighs as much as the two brackets that it stands for
    have hg : ∀ g, (closer g).weight = 1 := fun _ => rfl
    rw [Token.totalWeight, Token.totalWeight, Token.totalWeight, ih, hg, hg, Token.weight,
      if_pos hk]
    omega

theorem At.weight_eq {s : TokenStream} {ws : List Token} (h : At s ws) :
    s.weight = Token.totalWeight ws :=
  h.spells.totalWeight_eq

/-- The first word has some gap. -/
theorem At.exists_gap {s : TokenStream} {ws us : List Token} (h : At s (ws ++ us)) :
    ∃ g, At s (lead g ws ++ us) := by
  cases ws with
  | nil => exact ⟨"", h⟩
  | cons w ws => exact ⟨w.gap, h⟩

theorem Token.totalWeight_pos {ws : List Token} (h : ws ≠ []) : 0 < Token.totalWeight ws := by
  cases ws with
  | nil => exact absurd rfl h
  | cons w ws =>
    have := w.weight_pos
    rw [Token.totalWeight]
    omega

@[simp] theorem Token.totalWeight_lead (g : String) (ws : List Token) :
    Token.totalWeight (lead g ws) = Token.totalWeight ws := by
  cases ws <;> rfl

namespace Parse

variable {α β : Type} {s : TokenStream} {us : List Token}

/-! ## What is repeated -/

/-- One item, and all others by `again`, as long as there are more. -/
def manyRule (more : TokenStream → Bool) (item : Parse β) (again : Unit → Parse (List β)) :
    Unit → Parse (List β) := fun _ => do
  if more (← get) then
    let x ← item
    let xs ← again ()
    pure (x :: xs)
  else pure []

/-- One item, and all others by `again` if a comma follows. -/
def commaRule (item : Parse β) (again : Unit → Parse (List β)) : Unit → Parse (List β) :=
  fun _ => do
    let x ← item
    if ← eat .comma then
      let xs ← again ()
      pure (x :: xs)
    else pure [x]

theorem manyWhile_eq (more : TokenStream → Bool) (item : Parse β) :
    manyWhile more item = fix (manyRule more item) () := rfl

theorem commaSeparated_eq (item : Parse β) : commaSeparated item = fix (commaRule item) () := rfl

/-! ## Reading lists -/

theorem runs_get : Runs (get : Parse TokenStream) s fun a s' => a = s ∧ s' = s :=
  ⟨s, s, rfl, rfl, rfl⟩

theorem runs_unfold_manyRule {more : TokenStream → Bool} {item : Parse β} {f : α → List Token}
    {R : α → β → Prop} {Q : List Token → Prop} {xs : List α} {g : String}
    (hmore : ∀ x ∈ xs, ∀ g s vs, At s (lead g (f x) ++ vs) → more s = true)
    (hitem : ∀ x ∈ xs, ∀ g s vs, At s (lead g (f x) ++ vs) → Q vs →
      Runs item s fun b s' => R x b ∧ At s' vs)
    (hne : ∀ x ∈ xs, f x ≠ []) (hQ : ∀ x ∈ xs, ∀ vs, Q (f x ++ vs)) (hus : Q us)
    (hstop : ∀ s, At s us → more s = false) {n : Nat}
    (hn : Token.totalWeight (xs.flatMap f) < n) (h : At s (lead g (xs.flatMap f) ++ us)) :
    Runs (unfold (manyRule more item) n ()) s fun bs s' => List.Forall₂ R xs bs ∧ At s' us := by
  -- the words to be read weigh less than the fuel, so the fuel is never used up
  induction xs generalizing s n g with
  | nil =>
    cases n with
    | zero => omega
    | succ n =>
      have hus : At s us := h
      refine runs_get.seq ?_
      intro s1 h1
      rw [h1, hstop _ hus]
      exact .pure ⟨.nil, hus⟩
  | cons x xs ih =>
    cases n with
    | zero => omega
    | succ n =>
      rw [List.flatMap_cons, lead_append (hne x (by simp)), List.append_assoc] at h
      have hpos := Token.totalWeight_pos (hne x (by simp))
      rw [List.flatMap_cons, Token.totalWeight_append] at hn
      -- behind the first item stand the others, or what stands behind all of them
      have hrest : Q (xs.flatMap f ++ us) := by
        cases xs with
        | nil => exact hus
        | cons y ys =>
          rw [List.flatMap_cons, List.append_assoc]
          exact hQ y (by simp) _
      refine runs_get.seq ?_
      intro s0 h0
      rw [h0, hmore x (by simp) g _ _ h]
      refine (hitem x (by simp) g _ _ h hrest).bind ?_
      intro b s1 h1
      obtain ⟨g', h1'⟩ := h1.2.exists_gap
      refine (ih (fun y hy => hmore y (List.mem_cons_of_mem x hy))
        (fun y hy => hitem y (List.mem_cons_of_mem x hy))
        (fun y hy => hne y (List.mem_cons_of_mem x hy))
        (fun y hy => hQ y (List.mem_cons_of_mem x hy)) (by omega) h1').bind ?_
      intro bs s2 h2
      exact .pure ⟨.cons h1.1 h2.1, h2.2⟩

/-- Words of several things in a row, where `Q` holds of what may follow each of them. The gap in
front of the first one is another one than in the row. -/
theorem runs_manyWhile {more : TokenStream → Bool} {item : Parse β} {f : α → List Token}
    {R : α → β → Prop} {Q : List Token → Prop} {xs : List α} {g : String}
    (hmore : ∀ x ∈ xs, ∀ g s vs, At s (lead g (f x) ++ vs) → more s = true)
    (hitem : ∀ x ∈ xs, ∀ g s vs, At s (lead g (f x) ++ vs) → Q vs →
      Runs item s fun b s' => R x b ∧ At s' vs)
    (hne : ∀ x ∈ xs, f x ≠ []) (hQ : ∀ x ∈ xs, ∀ vs, Q (f x ++ vs)) (hus : Q us)
    (hstop : ∀ s, At s us → more s = false) (h : At s (lead g (xs.flatMap f) ++ us)) :
    Runs (manyWhile more item) s fun bs s' => List.Forall₂ R xs bs ∧ At s' us := by
  rw [manyWhile_eq]
  refine .fix (runs_unfold_manyRule hmore hitem hne hQ hus hstop ?_ h)
  rw [h.weight_eq, Token.totalWeight_append, Token.totalWeight_lead]
  omega

theorem runs_unfold_commaRule {item : Parse β} {f : α → List Token} {R : α → β → Prop}
    {x : α} {xs : List α} {g : String}
    (hitem : ∀ y ys, y :: ys <:+ x :: xs → ∀ g s,
      At s (lead g (f y) ++ commaWords us (ys.map f)) →
      Runs item s fun b s' => R y b ∧ At s' (commaWords us (ys.map f)))
    (hne : ∀ y ∈ x :: xs, f y ≠ []) (hstop : headKind us ≠ .comma) {n : Nat}
    (hn : Token.totalWeight (lead g (f x) ++ commaWords us (xs.map f)) ≤ n)
    (h : At s (lead g (f x) ++ commaWords us (xs.map f))) :
    Runs (unfold (commaRule item) n ()) s
      fun bs s' => List.Forall₂ R (x :: xs) bs ∧ At s' us := by
  -- here an item may depend on all words behind it, so the induction is on the fuel
  induction n generalizing x xs s g with
  | zero =>
    have hpos := Token.totalWeight_pos (hne x (by simp))
    rw [Token.totalWeight_append, Token.totalWeight_lead] at hn
    omega
  | succ n ih =>
    refine (hitem x xs (List.suffix_refl _) g s h).bind ?_
    intro b s1 h1
    cases xs with
    | nil =>
      refine (runs_eat_no h1.2 hstop (by decide)).seq ?_
      intro s2 h2
      exact .pure ⟨.cons h1.1 .nil, h2⟩
    | cons y ys =>
      have hat : At s1 (Token.sign .comma :: (lead " " (f y) ++ commaWords us (ys.map f))) := h1.2
      refine (runs_eat (k := .comma) hat rfl (by decide)).seq ?_
      intro s2 h2
      -- the item and the comma are read, which leaves less than before
      have hw : Token.totalWeight (lead " " (f y) ++ commaWords us (ys.map f)) ≤ n := by
        have hpos := Token.totalWeight_pos (hne x (by simp))
        rw [List.map_cons, commaWords, Token.totalWeight_append, Token.totalWeight_lead,
          Token.totalWeight] at hn
        omega
      refine (ih (fun z zs hz => hitem z zs (hz.trans (List.suffix_cons x _)))
        (fun z hz => hne z (List.mem_cons_of_mem x hz)) hw h2).bind ?_
      intro bs s3 h3
      exact .pure ⟨.cons h1.1 h3.1, h3.2⟩

/-- Words with commas between them, where each item is read in front of the others. -/
theorem runs_commaSeparated {item : Parse β} {f : α → List Token} {R : α → β → Prop}
    {xs : List α} {g : String}
    (hitem : ∀ y ys, y :: ys <:+ xs → ∀ g s, At s (lead g (f y) ++ commaWords us (ys.map f)) →
      Runs item s fun b s' => R y b ∧ At s' (commaWords us (ys.map f)))
    (hne : ∀ x ∈ xs, f x ≠ []) (hstop : headKind us ≠ .comma) (hxs : xs ≠ [])
    (h : At s (lead g (joinWords (xs.map f)) ++ us)) :
    Runs (commaSeparated item) s fun bs s' => List.Forall₂ R xs bs ∧ At s' us := by
  obtain ⟨x, xs, rfl⟩ := List.exists_cons_of_ne_nil hxs
  have hall : ∀ vs ∈ f x :: xs.map f, vs ≠ [] := by
    intro vs hvs
    obtain ⟨y, hy, rfl⟩ := List.mem_map.1 (List.map_cons ▸ hvs)
    exact hne y hy
  rw [List.map_cons, lead_joinWords hall] at h
  rw [commaSeparated_eq]
  refine .fix (runs_unfold_commaRule hitem hne hstop ?_ h)
  rw [h.weight_eq]
  omega

/-! ## What lists satisfy -/

theorem yields_get : Yields (get : Parse TokenStream) s fun a s' => a = s ∧ s' = s := by
  intro a s' h
  cases h
  exact ⟨rfl, rfl⟩

/-- An invariant `I` of the stream, under which all that is read satisfies `P`. -/
theorem yields_manyWhile {more : TokenStream → Bool} {item : Parse α} {P : α → Prop}
    {I : TokenStream → Prop}
    (hitem : ∀ s, I s → more s = true → Yields item s fun a s' => P a ∧ I s') (h : I s) :
    Yields (manyWhile more item) s fun as s' => (∀ a ∈ as, P a) ∧ I s' := by
  have hunfold : ∀ n s, I s →
      Yields (unfold (manyRule more item) n ()) s fun as s' => (∀ a ∈ as, P a) ∧ I s' := by
    intro n
    induction n with
    | zero => intro s _ as s' hrun; cases hrun
    | succ n ih =>
      intro s hs
      refine yields_get.bind ?_
      intro t s1 h1
      rw [h1.1, h1.2]
      split
      · next hm =>
        refine (hitem _ hs hm).bind ?_
        intro a s2 h2
        refine (ih s2 h2.2).bind ?_
        intro as s3 h3
        exact .pure ⟨by simpa using ⟨h2.1, h3.1⟩, h3.2⟩
      · exact .pure ⟨by simp, hs⟩
  exact .fix (hunfold _ s h)

/-- What is read between two streams, where `Q` is kept when an item and a comma are put in
front. -/
theorem yields_commaSeparated {item : Parse α} {I : TokenStream → Prop}
    {Q : TokenStream → List α → TokenStream → Prop}
    (hitem : ∀ s, I s → Yields item s fun a s' => (s'.peek.kind ≠ .comma → Q s [a] s') ∧
      (s'.peek.kind = .comma →
        I s'.advance ∧ ∀ as s'', Q s'.advance as s'' → Q s (a :: as) s''))
    (h : I s) : Yields (commaSeparated item) s (Q s) := by
  have hunfold : ∀ n s, I s → Yields (unfold (commaRule item) n ()) s (Q s) := by
    intro n
    induction n with
    | zero => intro s _ as s' hrun; cases hrun
    | succ n ih =>
      intro s hs
      refine (hitem s hs).bind ?_
      intro a s1 h1
      refine (yields_eat .comma).bind ?_
      intro b s2 h2
      cases b with
      | true =>
        -- what holds behind the comma is carried back in front of the item
        obtain ⟨hk, rfl⟩ := h2
        obtain ⟨hi, hq⟩ := h1.2 hk
        refine (ih _ hi).bind ?_
        intro as s3 h3
        exact .pure (hq as s3 h3)
      | false =>
        obtain ⟨hk, rfl⟩ := h2
        exact .pure (h1.1 hk)
  exact .fix (hunfold _ s h)

/-- An invariant `I` of the stream, under which all that is read satisfies `P`. -/
theorem yields_commaSeparated_all {item : Parse α} {P : α → Prop} {I : TokenStream → Prop}
    (hitem : ∀ s, I s → Yields item s fun a s' => P a ∧ I s')
    (hcomma : ∀ s, I s → s.peek.kind = .comma → I s.advance) (h : I s) :
    Yields (commaSeparated item) s fun as s' => (∀ a ∈ as, P a) ∧ as ≠ [] ∧ I s' := by
  refine yields_commaSeparated (Q := fun _ as s' => (∀ a ∈ as, P a) ∧ as ≠ [] ∧ I s') ?_ h
  intro s hs
  refine (hitem s hs).mono ?_
  intro a s' ha
  refine ⟨fun _ => ⟨by simpa using ha.1, by simp, ha.2⟩, fun hk => ⟨hcomma s' ha.2 hk, ?_⟩⟩
  intro as s'' has
  exact ⟨by simpa using ⟨ha.1, has.1⟩, by simp, has.2.2⟩

end Parse

end TemplateIdl
