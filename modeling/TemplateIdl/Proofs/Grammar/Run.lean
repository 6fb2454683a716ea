import TemplateIdl.Grammar.Parse
import TemplateIdl.Proofs.Token.Legible

/-!
# Run — what a rule does to a stream

* `Parse.Runs`, a rule gives a value and the value and the stream behind it satisfy something;
* `Parse.Yields`, the same of a rule that may also fail;
* `At`, a stream that stands in front of given words, and how the rules for one token read words;
* `Sound`, a stream of tokens that a text was cut into.
-/

namespace TemplateIdl

namespace Parse

variable {α β : Type} {x : Parse α} {f : α → Parse β} {s s' : TokenStream}

/-- The rule gives a value. The value and the stream behind it satisfy `Q`. -/
def Runs (x : Parse α) (s : TokenStream) (Q : α → TokenStream → Prop) : Prop :=
  ∃ a s', x s = .ok a s' ∧ Q a s'

/-- If the rule gives a value, then the value and the stream behind it satisfy `Q`. -/
def Yields (x : Parse α) (s : TokenStream) (Q : α → TokenStream → Prop) : Prop :=
  ∀ a s', x s = .ok a s' → Q a s'

theorem bind_of_ok {a : α} (h : x s = .ok a s') : (x >>= f) s = f a s' := by
  show EStateM.bind x f s = f a s'
  rw [EStateM.bind, h]

theorem bind_eq_ok {b : β} {s'' : TokenStream} :
    (x >>= f) s = .ok b s'' ↔ ∃ a s', x s = .ok a s' ∧ f a s' = .ok b s'' := by
  show EStateM.bind x f s = .ok b s'' ↔ _
  rw [EStateM.bind]
  rcases x s with ⟨a, s'⟩ | ⟨e, s'⟩
  · simp
  · simp

/-! ## Rules that run -/

theorem Runs.mono {P Q : α → TokenStream → Prop} (h : Runs x s P)
    (hPQ : ∀ a s', P a s' → Q a s') : Runs x s Q := by
  obtain ⟨a, s', hx, hp⟩ := h
  exact ⟨a, s', hx, hPQ a s' hp⟩

theorem Runs.bind {P : α → TokenStream → Prop} {Q : β → TokenStream → Prop} (hx : Runs x s P)
    (hf : ∀ a s', P a s' → Runs (f a) s' Q) : Runs (x >>= f) s Q := by
  obtain ⟨a, s', ha, hp⟩ := hx
  obtain ⟨b, s'', hb, hq⟩ := hf a s' hp
  exact ⟨b, s'', by rw [bind_of_ok ha, hb], hq⟩

/-- A rule of which the value is known. -/
theorem Runs.seq {v : α} {P : TokenStream → Prop} {Q : β → TokenStream → Prop}
    (hx : Runs x s fun a s' => a = v ∧ P s') (hf : ∀ s', P s' → Runs (f v) s' Q) :
    Runs (x >>= f) s Q := by
  refine hx.bind ?_
  intro a s' h
  rw [h.1]
  exact hf s' h.2

theorem Runs.pure {a : α} {Q : α → TokenStream → Prop} (h : Q a s) :
    Runs (Pure.pure a) s Q :=
  ⟨a, s, rfl, h⟩

theorem Runs.discard {P : α → TokenStream → Prop} (h : Runs x s P) :
    Runs (discard x) s fun _ s' => ∃ a, P a s' := by
  obtain ⟨a, s', ha, hp⟩ := h
  refine ⟨(), s', ?_, a, hp⟩
  show EStateM.map (Function.const α ()) x s = .ok () s'
  rw [EStateM.map, ha]

/-- A rule of which the value is not used. -/
theorem Runs.drop {g : Unit → Parse β} {P : α → TokenStream → Prop} {Q : β → TokenStream → Prop}
    (hx : Runs x s P) (hf : ∀ a s', P a s' → Runs (g ()) s' Q) :
    Runs (Functor.discard x >>= g) s Q := by
  refine hx.discard.bind ?_
  intro _ s' h
  obtain ⟨a, ha⟩ := h
  exact hf a s' ha

/-! ## Rules that may fail -/

theorem Yields.mono {P Q : α → TokenStream → Prop} (h : Yields x s P)
    (hPQ : ∀ a s', P a s' → Q a s') : Yields x s Q :=
  fun a s' hx => hPQ a s' (h a s' hx)

theorem Yields.bind {P : α → TokenStream → Prop} {Q : β → TokenStream → Prop}
    (hx : Yields x s P) (hf : ∀ a s', P a s' → Yields (f a) s' Q) : Yields (x >>= f) s Q := by
  intro b s'' h
  obtain ⟨a, s', ha, hb⟩ := bind_eq_ok.1 h
  exact hf a s' (hx a s' ha) b s'' hb

theorem Yields.pure {a : α} {Q : α → TokenStream → Prop} (h : Q a s) :
    Yields (Pure.pure a) s Q := by
  intro _ _ hread
  cases hread
  exact h

theorem Yields.discard {P : α → TokenStream → Prop} (h : Yields x s P) :
    Yields (discard x) s fun _ s' => ∃ a, P a s' := by
  intro u s' hx
  have hmap : EStateM.map (Function.const α ()) x s = .ok u s' := hx
  rw [EStateM.map] at hmap
  rcases hr : x s with ⟨a, s1⟩ | ⟨e, s1⟩
  · rw [hr] at hmap
    cases hmap
    exact ⟨a, h a s' hr⟩
  · rw [hr] at hmap
    cases hmap

theorem Yields.fail {kind : ParseErrorKind} {span : Span} {message : String}
    {Q : α → TokenStream → Prop} : Yields (Parse.fail kind span message) s Q := by
  intro _ _ hread
  cases hread

theorem Yields.throw {e : ParseError} {Q : α → TokenStream → Prop} :
    Yields (throw e : Parse α) s Q := by
  intro _ _ hread
  cases hread

theorem Yields.and {P Q : α → TokenStream → Prop} (hP : Yields x s P) (hQ : Yields x s Q) :
    Yields x s fun a s' => P a s' ∧ Q a s' :=
  fun a s' h => ⟨hP a s' h, hQ a s' h⟩

theorem Runs.of_eq {y : Parse α} {Q : α → TokenStream → Prop} (h : x s = y s) (hy : Runs y s Q) :
    Runs x s Q := by
  obtain ⟨a, s', hrun, hq⟩ := hy
  exact ⟨a, s', h.trans hrun, hq⟩

/-- A rule that succeeds does what it does whenever it succeeds. -/
theorem Runs.and {P Q : α → TokenStream → Prop} (hP : Runs x s P) (hQ : Yields x s Q) :
    Runs x s fun a s' => P a s' ∧ Q a s' := by
  obtain ⟨a, s', hx, hp⟩ := hP
  exact ⟨a, s', hx, hp, hQ a s' hx⟩

/-! ## Rules that use themselves -/

section Fix

variable {ι : Type} {rule : (ι → Parse α) → ι → Parse α} {i : ι} {Q : α → TokenStream → Prop}

theorem Runs.fix (h : Runs (unfold rule (s.weight + 1) i) s Q) : Runs (fix rule i) s Q := h

theorem Yields.fix (h : Yields (unfold rule (s.weight + 1) i) s Q) : Yields (fix rule i) s Q := h

end Fix

/-! ## Single tokens of a stream -/

theorem yields_peek : Yields peek s fun t s' => t = s.peek ∧ s' = s := by
  intro _ _ hread
  cases hread
  exact ⟨rfl, rfl⟩

theorem yields_check (k : Kind) :
    Yields (check k) s fun b s' => (b = true ↔ s.peek.kind = k) ∧ s' = s := by
  intro _ _ hread
  cases hread
  exact ⟨beq_iff_eq, rfl⟩

theorem yields_checkSecond (k : Kind) :
    Yields (checkSecond k) s fun b s' => (b = true ↔ (s.nth 1).kind = k) ∧ s' = s := by
  intro _ _ hread
  cases hread
  exact ⟨beq_iff_eq, rfl⟩

theorem yields_advance : Yields advance s fun t s' => t = s.peek ∧ s' = s.advance := by
  intro _ _ hread
  cases hread
  exact ⟨rfl, rfl⟩

/-- A token of kind `k` was read, or there is none. -/
theorem yields_eat (k : Kind) :
    Yields (eat k) s fun b s' => if b then s.peek.kind = k ∧ s' = s.advance
      else s.peek.kind ≠ k ∧ s' = s := by
  intro b s' h
  unfold eat at h
  split at h
  · next hk => cases h; exact ⟨hk, rfl⟩
  · next hk => cases h; exact ⟨hk, rfl⟩

theorem yields_expect (k : Kind) :
    Yields (expect k) s fun t s' => t = s.peek ∧ t.kind = k ∧ s' = s.advance := by
  intro t s' h
  unfold expect at h
  dsimp only at h
  split at h
  · next hk => cases h; exact ⟨rfl, hk, rfl⟩
  · split at h <;> cases h

theorem yields_expectIdentifier :
    Yields expectIdentifier s fun n s' =>
      s.peek.kind = .identifier ∧ n = s.peek.lexeme ∧ s' = s.advance := by
  intro n s' h
  unfold expectIdentifier at h
  dsimp only at h
  split at h
  · next hk => cases h; exact ⟨hk, rfl, rfl⟩
  · split at h <;> cases h

theorem yields_spanFrom (start : Span) : Yields (spanFrom start) s fun _ s' => s' = s := by
  intro _ _ hread
  cases hread
  rfl

/-! ## Looking at tokens in front of other rules -/

section Look

variable {Q : α → TokenStream → Prop} {k : Kind}

theorem Yields.peek_bind {f : Token → Parse α} (h : Yields (f s.peek) s Q) :
    Yields (peek >>= f) s Q := by
  refine yields_peek.bind ?_
  intro t s' ht
  rw [ht.1, ht.2]
  exact h

theorem Runs.peek_bind {f : Token → Parse α} (h : Runs (f s.peek) s Q) : Runs (peek >>= f) s Q := h

theorem Yields.check_bind {f : Bool → Parse α} (h : ∀ b, Yields (f b) s Q) :
    Yields (check k >>= f) s Q := by
  refine (yields_check k).bind ?_
  intro b s' hb
  rw [hb.2]
  exact h b

theorem Yields.checkSecond_bind {f : Bool → Parse α} (h : ∀ b, Yields (f b) s Q) :
    Yields (checkSecond k >>= f) s Q := by
  refine (yields_checkSecond k).bind ?_
  intro b s' hb
  rw [hb.2]
  exact h b

theorem Yields.advance_bind {f : Token → Parse α} (h : Yields (f s.peek) s.advance Q) :
    Yields (advance >>= f) s Q := by
  refine yields_advance.bind ?_
  intro t s' ht
  rw [ht.1, ht.2]
  exact h

theorem Yields.skip_bind {f : Unit → Parse α} (h : Yields (f ()) s.advance Q) :
    Yields (Functor.discard advance >>= f) s Q := by
  refine yields_advance.discard.bind ?_
  intro u s' ht
  obtain ⟨t, -, hs⟩ := ht
  rw [hs]
  exact h

theorem Yields.expect_bind {f : Unit → Parse α}
    (h : s.peek.kind = k → Yields (f ()) s.advance Q) :
    Yields (Functor.discard (expect k) >>= f) s Q := by
  refine (yields_expect k).discard.bind ?_
  intro u s' ht
  obtain ⟨t, rfl, hk, hs⟩ := ht
  rw [hs]
  exact h hk

end Look

end Parse

/-! ## Streams in front of words -/

/-- The kind of the first word. -/
def headKind (ws : List Token) : Kind := (ws.head?.map Token.kind).getD .eof

@[simp] theorem headKind_nil : headKind [] = .eof := rfl

@[simp] theorem headKind_cons (w : Token) (ws : List Token) : headKind (w :: ws) = w.kind := rfl

/-- The stream stands in front of the words. -/
structure At (s : TokenStream) (ws : List Token) : Prop where
  spells : Spells s.ahead ws
  stop : s.stop.kind = .eof

namespace At

variable {s : TokenStream} {w : Token} {ws : List Token} {k : Kind}

theorem peek (h : At s (w :: ws)) (hw : w.kind ≠ .greater) :
    s.peek.bare = w.bare ∧ At s.advance ws := by
  obtain ⟨past, ahead, stop⟩ := s
  obtain ⟨hspell, hstop⟩ := h
  cases hspell with
  | same hb hr => exact ⟨hb, hr, hstop⟩
  | shift => exact absurd rfl hw

/-- A closing bracket is a token of its own if no other one follows. -/
theorem peek_alone (h : At s (w :: ws)) (hws : headKind ws ≠ .greater) :
    s.peek.bare = w.bare ∧ At s.advance ws := by
  obtain ⟨past, ahead, stop⟩ := s
  obtain ⟨hspell, hstop⟩ := h
  cases hspell with
  | same hb hr => exact ⟨hb, hr, hstop⟩
  | shift => exact absurd rfl hws

theorem peek_kind (h : At s ws) : s.peek.kind = headKind ws ∨
    (headKind ws = .greater ∧ s.peek.kind = .greaterGreater) := by
  obtain ⟨past, ahead, stop⟩ := s
  obtain ⟨hspell, hstop⟩ := h
  cases hspell with
  | nil => exact .inl hstop
  | same hb => exact .inl (Token.bare_eq_iff.1 hb).1
  | shift hk => exact .inr ⟨rfl, hk⟩

theorem peek_kind_eq (h : At s ws) (hw : headKind ws ≠ .greater) : s.peek.kind = headKind ws :=
  h.peek_kind.resolve_right fun hg => hw hg.1

theorem peek_kind_ne (h : At s ws) (hk : headKind ws ≠ k) (hs : k ≠ .greaterGreater) :
    s.peek.kind ≠ k := by
  rcases h.peek_kind with he | ⟨-, he⟩
  · rwa [he]
  · rw [he]
    exact hs.symm

end At

theorem TokenStream.nth_one (s : TokenStream) : s.nth 1 = s.advance.peek := by
  obtain ⟨past, ahead, stop⟩ := s
  rcases ahead with _ | ⟨t, ts⟩
  · rfl
  · cases ts <;> rfl

namespace Parse

variable {s : TokenStream} {w : Token} {ws : List Token} {k : Kind}

theorem runs_peek (h : At s (w :: ws)) (hw : w.kind ≠ .greater) :
    Runs peek s fun t s' => t.bare = w.bare ∧ At s' (w :: ws) :=
  ⟨s.peek, s, rfl, (h.peek hw).1, h⟩

theorem runs_peek_kind (h : At s ws) (hw : headKind ws ≠ .greater) :
    Runs peek s fun t s' => t.kind = headKind ws ∧ At s' ws :=
  ⟨s.peek, s, rfl, h.peek_kind_eq hw, h⟩

theorem runs_advance (h : At s (w :: ws)) (hw : w.kind ≠ .greater) :
    Runs advance s fun t s' => t.bare = w.bare ∧ At s' ws :=
  ⟨s.peek, s.advance, rfl, h.peek hw⟩

theorem runs_eat (h : At s (w :: ws)) (hk : w.kind = k) (hne : k ≠ .greater) :
    Runs (eat k) s fun b s' => b = true ∧ At s' ws := by
  subst hk
  obtain ⟨hb, hs⟩ := h.peek hne
  have hp : s.peek.kind = w.kind := (Token.bare_eq_iff.1 hb).1
  exact ⟨true, s.advance, by rw [eat, if_pos hp], rfl, hs⟩

theorem runs_eat_no (h : At s ws) (hk : headKind ws ≠ k) (hs : k ≠ .greaterGreater) :
    Runs (eat k) s fun b s' => b = false ∧ At s' ws :=
  ⟨false, s, by rw [eat, if_neg (h.peek_kind_ne hk hs)], rfl, h⟩

theorem runs_check (h : At s ws) (hk : headKind ws = k) (hne : k ≠ .greater) :
    Runs (check k) s fun b s' => b = true ∧ At s' ws := by
  have hp : s.peek.kind = k := hk ▸ h.peek_kind_eq (hk ▸ hne)
  exact ⟨true, s, by rw [check, hp, beq_self_eq_true], rfl, h⟩

theorem runs_check_no (h : At s ws) (hk : headKind ws ≠ k) (hs : k ≠ .greaterGreater) :
    Runs (check k) s fun b s' => b = false ∧ At s' ws :=
  ⟨false, s, by rw [check, beq_eq_false_iff_ne.2 (h.peek_kind_ne hk hs)], rfl, h⟩

theorem runs_checkSecond (h : At s (w :: ws)) (hw : w.kind ≠ .greater) (hk : headKind ws = k)
    (hne : k ≠ .greater) :
    Runs (checkSecond k) s fun b s' => b = true ∧ At s' (w :: ws) := by
  have hp : (s.nth 1).kind = k := by
    rw [s.nth_one, ← hk]
    exact (h.peek hw).2.peek_kind_eq (hk ▸ hne)
  exact ⟨true, s, by rw [checkSecond, hp, beq_self_eq_true], rfl, h⟩

theorem runs_checkSecond_no (h : At s (w :: ws)) (hw : w.kind ≠ .greater) (hk : headKind ws ≠ k)
    (hs : k ≠ .greaterGreater) :
    Runs (checkSecond k) s fun b s' => b = false ∧ At s' (w :: ws) := by
  have hp : (s.nth 1).kind ≠ k := by
    rw [s.nth_one]
    exact (h.peek hw).2.peek_kind_ne hk hs
  exact ⟨false, s, by rw [checkSecond, beq_eq_false_iff_ne.2 hp], rfl, h⟩

theorem runs_expect (h : At s (w :: ws)) (hk : w.kind = k) (hne : k ≠ .greater) :
    Runs (expect k) s fun t s' => t.bare = w.bare ∧ At s' ws := by
  subst hk
  obtain ⟨hb, hs⟩ := h.peek hne
  have hp : s.peek.kind = w.kind := (Token.bare_eq_iff.1 hb).1
  refine ⟨s.peek, s.advance, ?_, hb, hs⟩
  rw [expect]
  exact if_pos hp

theorem runs_expectIdentifier (h : At s (w :: ws)) (hk : w.kind = .identifier) :
    Runs expectIdentifier s fun n s' => n = w.lexeme ∧ At s' ws := by
  obtain ⟨hb, hs⟩ := h.peek (by rw [hk]; decide)
  have hp : s.peek.kind = .identifier := hk ▸ (Token.bare_eq_iff.1 hb).1
  refine ⟨s.peek.lexeme, s.advance, ?_, (Token.bare_eq_iff.1 hb).2.1, hs⟩
  rw [expectIdentifier]
  exact if_pos hp

theorem runs_spanFrom (start : Span) (h : At s ws) : Runs (spanFrom start) s fun _ s' => At s' ws :=
  ⟨_, s, rfl, h⟩

end Parse

end TemplateIdl
