import TemplateIdl.Proofs.Grammar.Closing

/-!
# Capture — the tokens of a default in front of other tokens

* `DefaultValue.Ends`, tokens in front of which a default ends;
* `DefaultValue.capture_congr`, the same tokens are a default in front of all tokens in which the
  search for closing brackets ends alike;
* `DefaultValue.capture_spells`, and so are tokens that spell them.
-/

namespace TemplateIdl

namespace DefaultValue

variable {openers : List Kind} {last? : Option Kind} {ds es rest rest' : List Token}

/-- The tokens begin with one in front of which a default ends. -/
def Ends (us : List Token) : Prop := isEnd (headKind us) = true

/-! ## Open brackets -/

/-- Number of open brackets that are no angle brackets. -/
def brackets (openers : List Kind) : Nat := openers.countP (· != .less)

theorem brackets_cons_less (openers : List Kind) : brackets (.less :: openers) = brackets openers :=
  List.countP_cons_of_neg (by decide)

theorem brackets_cons {k : Kind} (h : k ≠ .less) (openers : List Kind) :
    brackets (k :: openers) = brackets openers + 1 :=
  List.countP_cons_of_pos (by simpa using h)

theorem brackets_dropAngle (openers : List Kind) : brackets (dropAngle openers) = brackets openers := by
  unfold dropAngle
  split
  · exact (brackets_cons_less _).symm
  · rfl

theorem brackets_closeBracket {k : Kind} {openers' : List Kind}
    (h : closeBracket k openers = some openers') : brackets openers = brackets openers' + 1 := by
  induction openers with
  | nil => cases h
  | cons o openers ih =>
    by_cases ho : o = .less
    · subst ho
      rw [brackets_cons_less]
      exact ih h
    · have hdrop : (o :: openers).dropWhile (· == .less) = o :: openers :=
        List.dropWhile_cons_of_neg (by simpa using ho)
      rw [closeBracket, hdrop] at h
      dsimp only at h
      split at h
      · next heq =>
        cases h
        exact brackets_cons ho _
      · cases h

/-- The search for a closing bracket that began with `n` brackets open counts the brackets opened
since then. -/
theorem brackets_openersAfter {openers' : List Kind} {t : Token} {n b : Nat}
    (h : openersAfter openers last? t rest = some openers') (hn : brackets openers = n + b) (a : Nat) :
    angleStep a b t.kind = none ∨
      ∃ a' b', angleStep a b t.kind = some (a', b') ∧ brackets openers' = n + b' := by
  -- the three things that a bracket can do to both counts: open, close, and stand in an angle
  have hopen : ∀ {k : Kind}, k ≠ .less → openers' = k :: openers →
      brackets openers' = n + (b + 1) := by
    intro k hk he
    rw [he, brackets_cons hk, hn]
    omega
  have hclose : ∀ {k : Kind}, closeBracket k openers = some openers' →
      (if b = 0 then none else some (a, b - 1)) = none ∨
        ∃ a' b', (if b = 0 then none else some (a, b - 1)) = some (a', b') ∧
          brackets openers' = n + b' := by
    intro k hc
    have hcount := brackets_closeBracket hc
    by_cases hb : b = 0
    · exact .inl (if_pos hb)
    · exact .inr ⟨a, b - 1, if_neg hb, by omega⟩
  have hangle : ∀ m : Nat, brackets openers' = brackets openers →
      ∃ a' b', some (if b = 0 then (m, b) else (a, b)) = some (a', b') ∧
        brackets openers' = n + b' := by
    intro m he
    by_cases hb : b = 0
    · exact ⟨m, b, by rw [if_pos hb], by omega⟩
    · exact ⟨a, b, by rw [if_neg hb], by omega⟩
  unfold openersAfter at h
  split at h
  · next hk => rw [hk] at h ⊢; exact .inr ⟨a, b + 1, rfl, hopen (by decide) (Option.some.inj h).symm⟩
  · next hk => rw [hk] at h ⊢; exact .inr ⟨a, b + 1, rfl, hopen (by decide) (Option.some.inj h).symm⟩
  · next hk => rw [hk] at h ⊢; exact .inr ⟨a, b + 1, rfl, hopen (by decide) (Option.some.inj h).symm⟩
  · next hk =>
    rw [hk]
    refine .inr (hangle (a + 1) ?_)
    split at h
    · cases h; exact brackets_cons_less _
    · cases h; rfl
  · next hk => rw [hk]; exact hclose h
  · next hk => rw [hk]; exact hclose h
  · next hk => rw [hk]; exact hclose h
  · next hk =>
    rw [hk]
    cases h
    exact .inr (hangle (a - 1) (brackets_dropAngle _))
  · next hk =>
    rw [hk]
    cases h
    exact .inr (hangle (a - 2) (by rw [brackets_dropAngle, brackets_dropAngle]))
  · next h1 h2 h3 h4 h5 h6 h7 h8 h9 =>
    -- no bracket at all: the search ends or counts nothing
    cases h
    unfold angleStep
    split
    · exact .inl rfl
    · contradiction
    · contradiction
    · contradiction
    · contradiction
    · contradiction
    · contradiction
    · contradiction
    · contradiction
    · contradiction
    · exact .inr ⟨a, b, rfl, hn⟩

/-! ## The same tokens in front of others -/

/-- What a default in front of other tokens looks like. -/
theorem capture_append {d : Token} (h : capture openers last? (d :: ds ++ rest) = .ok (d :: ds)) :
    (openers.isEmpty && isEnd d.kind) = false ∧
      ∃ openers', openersAfter openers last? d (ds ++ rest) = some openers' ∧
        capture openers' (some d.kind) (ds ++ rest) = .ok ds := by
  rw [List.cons_append, capture] at h
  split at h
  · cases h
  · next hend =>
    refine ⟨by simpa using hend, ?_⟩
    split at h
    · cases h
    · next openers' ho =>
      refine ⟨openers', ho, ?_⟩
      rcases hc : capture openers' (some d.kind) (ds ++ rest) with e | ts
      · rw [hc] at h; cases h
      · rw [hc] at h; cases h; rfl

theorem capture_nil (h : capture openers last? rest = .ok []) : openers = [] := by
  cases rest with
  | nil =>
    cases openers with
    | nil => rfl
    | cons k openers => cases h
  | cons t ts =>
    rw [capture] at h
    split at h
    · next hend =>
      rw [Bool.and_eq_true, List.isEmpty_iff] at hend
      exact hend.1
    · split at h
      · cases h
      · next openers' _ =>
        rcases hc : capture openers' (some t.kind) ts with e | us
        · rw [hc] at h; cases h
        · rw [hc] at h; cases h

theorem capture_cons {d : Token} {openers' : List Kind} {ts : List Token}
    (hend : (openers.isEmpty && isEnd d.kind) = false)
    (ho : openersAfter openers last? d ts = some openers')
    (h : capture openers' (some d.kind) ts = .ok ds) :
    capture openers last? (d :: ts) = .ok (d :: ds) := by
  rw [capture, if_neg (by simp [hend]), ho]
  dsimp only
  rw [h]
  rfl

theorem capture_end (h : Ends rest) : capture [] last? rest = .ok [] := by
  cases rest with
  | nil => cases h
  | cons t ts =>
    rw [capture]
    exact if_pos h

/-- The search for a closing bracket that begins inside of a default does not see what stands
behind the default, but for brackets that would close an angle bracket. -/
theorem closesAngle_capture (h : capture openers last? (ds ++ rest) = .ok ds)
    (hk : ds.map Token.kind = es.map Token.kind) (hr : ClosesAlike rest rest') {n b : Nat}
    (hn : brackets openers = n + b) (a : Nat) :
    closesAngle (a + 1) b (ds ++ rest) = closesAngle (a + 1) b (es ++ rest') := by
  induction ds generalizing openers last? es a b with
  | nil =>
    rw [capture_nil h] at hn
    have hb : b = 0 := by
      have hzero : brackets [] = 0 := rfl
      omega
    rw [List.map_nil, eq_comm, List.map_eq_nil_iff] at hk
    rw [hk, hb]
    exact hr a
  | cons d ds ih =>
    cases es with
    | nil => cases hk
    | cons e es =>
      rw [List.map_cons, List.map_cons, List.cons.injEq] at hk
      obtain ⟨-, openers', ho, hc⟩ := capture_append h
      -- both searches take the same step, and the default opens and closes the same brackets
      refine closesAngle_congr hk.1 rfl ?_
      intro a' b' hstep
      rcases brackets_openersAfter ho hn (a + 1) with hnone | ⟨a2, b2, hsome, hcount⟩
      · rw [hk.1, hstep] at hnone
        cases hnone
      · rw [hk.1, hstep] at hsome
        cases hsome
        exact ih hc hk.2 hcount a'

theorem openersAfter_congr {t u : Token} (hk : t.kind = u.kind)
    (h : t.kind = .less → closesAngle 1 0 rest = closesAngle 1 0 rest') :
    openersAfter openers last? t rest = openersAfter openers last? u rest' := by
  unfold openersAfter
  rw [← hk]
  by_cases hless : t.kind = .less
  · -- only an opening angle looks at what follows it
    rw [hless, h hless]
  · split <;> first | rfl | contradiction

/-- Tokens of the same kinds are a default in front of tokens in which the search for closing
brackets ends alike. -/
theorem capture_congr (h : capture openers last? (ds ++ rest) = .ok ds)
    (hk : ds.map Token.kind = es.map Token.kind) (hr : ClosesAlike rest rest') (hend : Ends rest') :
    capture openers last? (es ++ rest') = .ok es := by
  induction ds generalizing openers last? es with
  | nil =>
    rw [List.map_nil, eq_comm, List.map_eq_nil_iff] at hk
    rw [hk, capture_nil h]
    exact capture_end hend
  | cons d ds ih =>
    cases es with
    | nil => cases hk
    | cons e es =>
      rw [List.map_cons, List.map_cons, List.cons.injEq] at hk
      obtain ⟨hno, openers', ho, hc⟩ := capture_append h
      have hcongr : openersAfter openers last? d (ds ++ rest) =
          openersAfter openers last? e (es ++ rest') :=
        openersAfter_congr hk.1 fun _ => closesAngle_capture hc hk.2 hr rfl 0
      rw [hk.1] at hno hc
      exact capture_cons hno (hcongr ▸ ho) (ih hc hk.2)

/-- The search that begins with a default goes on behind the default. -/
theorem closesAlike_capture (h : capture [] last? (ds ++ rest) = .ok ds)
    (hk : ds.map Token.kind = es.map Token.kind) (hr : ClosesAlike rest rest') :
    ClosesAlike (ds ++ rest) (es ++ rest') :=
  closesAngle_capture (n := 0) h hk hr rfl

/-! ## Tokens that spell a default -/

/-- Of the token in front of a default only matters whether it is an identifier. -/
theorem capture_last {k : Option Kind} {ts : List Token}
    (h : last? = some .identifier ↔ k = some .identifier) :
    capture openers last? ts = capture openers k ts := by
  have hopen : ∀ (t : Token) (us : List Token),
      openersAfter openers last? t us = openersAfter openers k t us := by
    intro t us
    unfold openersAfter
    split
    all_goals first | rfl | simp only [h]
  cases ts with
  | nil => rfl
  | cons t us => rw [capture, capture, hopen]

/-- Tokens that spell a default and what follows it: a shift stands for two closing brackets of
the default. -/
theorem capture_spells {ts ws : List Token} (hs : Spells ts (ds ++ ws))
    (h : capture openers last? (ds ++ ws) = .ok ds) (hend : Ends ws) :
    ∃ es us, ts = es ++ us ∧ Spells es ds ∧ Spells us ws ∧
      capture openers last? ts = .ok es := by
  -- the tokens run out together with the words, so the default `ds` is taken apart on the way
  generalize hall : ds ++ ws = all at hs
  induction hs generalizing ds openers last? with
  | nil =>
    obtain ⟨rfl, rfl⟩ := List.append_eq_nil_iff.1 hall
    cases hend
  | @same t w ts ws' hb hr ih =>
    cases ds with
    | nil =>
      -- the default is over, and with it the tokens that spell it
      rw [List.nil_append] at h hall
      have hempty := capture_nil h
      subst hempty
      have hts : Ends (t :: ts) := by
        rw [hall] at hend
        show isEnd t.kind = true
        rw [(Token.bare_eq_iff.1 hb).1]
        exact hend
      exact ⟨[], t :: ts, rfl, .nil, hall ▸ .same hb hr, capture_end hts⟩
    | cons d ds =>
      obtain ⟨rfl, rfl⟩ := List.cons.inj hall
      obtain ⟨hno, openers', ho, hc⟩ := capture_append h
      obtain ⟨es, us, rfl, hes, hus, hcap⟩ := ih hc rfl
      have hk := (Token.bare_eq_iff.1 hb).1
      have hcongr : openersAfter openers last? t (es ++ us) =
          openersAfter openers last? d (ds ++ ws) :=
        openersAfter_congr hk fun _ => hr.closesAngle_eq 0 0
      rw [← hk] at hno
      rw [← hk] at hc
      refine ⟨t :: es, us, rfl, .same hb hes, hus, capture_cons hno (hcongr.trans ho) ?_⟩
      rw [hk]
      exact hcap
  | @shift t ts ws' hk hl hr ih =>
    match ds with
    | [] =>
      rw [List.nil_append] at hall
      rw [hall] at hend
      cases hend
    | [d] =>
      have hws : ws = closer "" :: ws' := (List.cons.inj hall).2
      rw [hws] at hend
      cases hend
    | d :: e :: ds =>
      -- both closing brackets belong to the default, where one shift closes what they close
      obtain ⟨rfl, hall'⟩ := List.cons.inj hall
      obtain ⟨rfl, hall''⟩ := List.cons.inj hall'
      obtain ⟨-, openers1, ho1, hc1⟩ := capture_append h
      obtain ⟨-, openers2, ho2, hc2⟩ := capture_append hc1
      obtain ⟨es, us, rfl, hes, hus, hcap⟩ := ih hc2 hall''
      have hclosed1 : openers1 = dropAngle openers := (Option.some.inj ho1).symm
      have hclosed2 : openers2 = dropAngle openers1 := (Option.some.inj ho2).symm
      have ho : openersAfter openers last? t (es ++ us) = some openers2 := by
        rw [openersAfter, hk, hclosed2, hclosed1]
      have hno : (openers.isEmpty && isEnd t.kind) = false := by
        rw [hk]
        exact Bool.and_false _
      refine ⟨t :: es, us, rfl, .shift hk hl hes, hus, capture_cons hno ho ?_⟩
      rw [capture_last (k := some (closer "").kind)]
      · exact hcap
      · rw [hk]
        exact ⟨nofun, nofun⟩

end DefaultValue

end TemplateIdl
