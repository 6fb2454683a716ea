import TemplateIdl.Proofs.Grammar.Equation

/-!
# Compare — one rule run on two streams

* `Comparison`, two streams that look alike to a rule, through the few things that a rule can see
  of a stream: the next tokens, and how far a default value and the value of an enumerator reach;
* `Comparison.Follows`, what the first run does, the second one does as well, until the first one
  has read all that is compared;
* `Comparison.Closes`, the same of a rule that ends with a semicolon, which may be the last token
  that is compared;
* the rules for single tokens, for repetition, types, headers and arguments follow themselves.

A comparison also tells at which places the first run may report errors.
-/

namespace TemplateIdl

open TokenStream DefaultValue

/-- The tokens differ in their places and in the gaps before them only. -/
structure Token.Like (spans : Span → Span → Prop) (t t' : Token) : Prop where
  kind : t.kind = t'.kind
  lexeme : t.lexeme = t'.lexeme
  span : spans t.span t'.span

/-- How two streams look alike. -/
structure Comparison where
  /-- Places of the first text and of the second one mean the same if they are mapped to the same
  place. -/
  left : Span → Span
  right : Span → Span
  /-- The namespaces of the first run, by those of the second one. -/
  spaces : List String → List String
  /-- The places at which the first run may report errors. -/
  reports : Span → Prop
  streams : TokenStream → TokenStream → Prop
  /-- Streams that weigh less stand behind all that is compared. -/
  limit : Nat
  /-- Both streams stand right behind all that is compared. -/
  finished : TokenStream → TokenStream → Prop
  merge {a a' b b' : Span} : left a = right a' ∧ reports a → left b = right b' ∧ reports b →
    left (a.merge b) = right (a'.merge b') ∧ reports (a.merge b)
  stop_kind {s s' : TokenStream} : streams s s' → s.stop.kind = .eof ∧ s'.stop.kind = .eof
  peek {s s' : TokenStream} : streams s s' →
    s.peek.Like (fun a b => left a = right b ∧ reports a) s'.peek
  second {s s' : TokenStream} : streams s s' → s.peek.kind ≠ .semicolon →
    (s.nth 1).kind = (s'.nth 1).kind
  advance {s s' : TokenStream} : streams s s' →
    s.advance.weight < limit ∨ streams s.advance s'.advance
  split {s s' : TokenStream} : streams s s' → streams s.splitShift s'.splitShift
  capture {s s' : TokenStream} {ts : List Token} : streams s s' →
    capture [] none s.ahead = .ok ts → (s.skip ts.length).weight < limit ∨
      ∃ ts', DefaultValue.capture [] none s'.ahead = .ok ts' ∧ ts'.length = ts.length ∧
        textOf ts' = textOf ts ∧ streams (s.skip ts.length) (s'.skip ts.length)
  value {s s' : TokenStream} {n : Nat} : streams s s' →
    (s.ahead.takeWhile Parse.isValueToken).length = n → (s.skip n).weight < limit ∨
      (s'.ahead.takeWhile Parse.isValueToken).length = n ∧ streams (s.skip n) (s'.skip n)
  close {s s' : TokenStream} : streams s s' → s.peek.kind = .semicolon →
    streams s.advance s'.advance ∨ finished s.advance s'.advance
  weight_lt {s s' : TokenStream} : finished s s' → s.weight < limit
  reports_ahead {s s' : TokenStream} : streams s s' → ∀ t ∈ s.stop :: s.ahead, reports t.span
  reports_behind (a : Span) : 0 < limit → reports a

namespace Comparison

variable (C : Comparison)

/-- Places that mean the same. -/
def spans (a b : Span) : Prop := C.left a = C.right b ∧ C.reports a

/-- Tokens that look alike. -/
abbrev Like (t t' : Token) : Prop := t.Like C.spans t'

section Runs

variable {α β α' β' : Type} (s s' : TokenStream) (x : Parse α) (y : Parse β) (Q : α → β → Prop)

/-- What `x` does to the first stream, `y` does to the second one, unless the first run has read
all that is compared. -/
structure FollowsAt : Prop where
  ok {a : α} {t : TokenStream} (h : x s = .ok a t) : t.weight < C.limit ∨
    ∃ b t', y s' = .ok b t' ∧ C.streams t t' ∧ Q a b
  error {e : ParseError} {t : TokenStream} (h : x s = .error e t) : C.reports e.span

/-- The same for all streams that are compared. -/
def Follows : Prop := ∀ s s', C.streams s s' → C.FollowsAt s s' x y Q

/-- What `x` does to the first stream, `y` does to the second one, where both may end right behind
all that is compared. -/
structure ClosesAt : Prop where
  ok {a : α} {t : TokenStream} (h : x s = .ok a t) : t.weight + 1 < C.limit ∨
    ∃ b t', y s' = .ok b t' ∧ (C.streams t t' ∨ C.finished t t') ∧ Q a b
  error {e : ParseError} {t : TokenStream} (h : x s = .error e t) : C.reports e.span

/-- The same for all streams that are compared. -/
def Closes : Prop := ∀ s s', C.streams s s' → C.ClosesAt s s' x y Q

end Runs

end Comparison

namespace Parse

theorem bind_eq_error {α β : Type} {x : Parse α} {f : α → Parse β} {s t : TokenStream}
    {e : ParseError} : (x >>= f) s = .error e t ↔
      x s = .error e t ∨ ∃ a s', x s = .ok a s' ∧ f a s' = .error e t := by
  show EStateM.bind x f s = .error e t ↔ _
  rw [EStateM.bind]
  rcases x s with ⟨a, s'⟩ | ⟨e', s'⟩
  · simp
  · simp

end Parse

/-- A token that closes no bracket is one of those that are read. -/
theorem DefaultValue.mem_of_capture {ts : List Token} {t : Token} {openers : List Kind}
    {last? : Option Kind} (h : capture openers last? ts = .error (.unmatched t)) : t ∈ ts := by
  induction ts generalizing openers last? with
  | nil =>
    unfold capture at h
    split at h <;> cases h
  | cons u us ih =>
    rw [capture] at h
    split at h
    · cases h
    split at h
    · cases h
      simp
    · next openers' _ =>
      rcases hc : capture openers' (some u.kind) us with f | vs
      · rw [hc] at h
        cases h
        exact List.mem_cons_of_mem u (ih hc)
      · rw [hc] at h
        cases h

namespace Comparison

open Parse

-- continuations are searched for what they do to a stream, and some have many steps
set_option synthInstance.maxSize 1000

variable {C : Comparison} {α β α' β' : Type} {s s' : TokenStream} {x : Parse α} {y : Parse β}
  {Q : α → β → Prop} {Q' : α' → β' → Prop}

/-! ## Sequences -/

section Sequences

variable {f : α → Parse α'} {g : β → Parse β'}

theorem FollowsAt.bind [hf : ∀ a, Moving (f a)] (h : C.FollowsAt s s' x y Q)
    (hfg : ∀ a b, Q a b → C.Follows (f a) (g b) Q') :
    C.FollowsAt s s' (x >>= f) (y >>= g) Q' where
  ok {c t} hrun := by
    obtain ⟨a, s1, ha, hc⟩ := bind_eq_ok.1 hrun
    rcases h.ok ha with hlt | ⟨b, s1', hb, hs1, hab⟩
    · exact .inl (Nat.lt_of_le_of_lt ((hf a).ok hc).weight_le hlt)
    · rw [bind_of_ok hb]
      exact (hfg a b hab s1 s1' hs1).ok hc
  error {e t} hrun := by
    rcases bind_eq_error.1 hrun with hx | ⟨a, s1, ha, he⟩
    · exact h.error hx
    · rcases h.ok ha with hlt | ⟨b, s1', -, hs1, hab⟩
      · exact C.reports_behind _ (Nat.zero_lt_of_lt hlt)
      · exact (hfg a b hab s1 s1' hs1).error he

theorem Follows.bind [hf : ∀ a, Moving (f a)] (h : C.Follows x y Q)
    (hfg : ∀ a b, Q a b → C.Follows (f a) (g b) Q') : C.Follows (x >>= f) (y >>= g) Q' :=
  fun s s' hs => (h s s' hs).bind hfg

/-- A rule that gives the same value in both runs. -/
theorem Follows.same {x y : Parse α} {g : α → Parse β'} [hf : ∀ a, Moving (f a)]
    (h : C.Follows x y Eq) (hfg : ∀ a, C.Follows (f a) (g a) Q') :
    C.Follows (x >>= f) (y >>= g) Q' := by
  refine h.bind ?_
  rintro a _ rfl
  exact hfg a

theorem Follows.discard (h : C.Follows x y Q) :
    C.Follows (Functor.discard x) (Functor.discard y) Eq := by
  intro s s' hs
  have hmap : ∀ {γ : Type} (z : Parse γ) (t : TokenStream), (Functor.discard z) t =
      EStateM.map (Function.const γ ()) z t := fun _ _ => rfl
  constructor
  · intro a t hrun
    rw [hmap, EStateM.map] at hrun
    rcases hr : x s with ⟨a', t'⟩ | ⟨e, t'⟩
    · rw [hr] at hrun
      cases hrun
      rcases (h s s' hs).ok hr with hlt | ⟨b, t', hb, ht, -⟩
      · exact .inl hlt
      · exact .inr ⟨(), t', by rw [hmap, EStateM.map, hb], ht, rfl⟩
    · rw [hr] at hrun
      cases hrun
  · intro e t hrun
    rw [hmap, EStateM.map] at hrun
    rcases hr : x s with ⟨a', t'⟩ | ⟨e', t'⟩
    · rw [hr] at hrun
      cases hrun
    · rw [hr] at hrun
      cases hrun
      exact (h s s' hs).error hr

/-- A rule of which the value is not used. -/
theorem Follows.drop {f : Unit → Parse α'} {g : Unit → Parse β'} [hf : ∀ a, Moving (f a)]
    (h : C.Follows x y Q) (hfg : C.Follows (f ()) (g ()) Q') :
    C.Follows (Functor.discard x >>= f) (Functor.discard y >>= g) Q' :=
  h.discard.same fun _ => hfg

theorem Follows.ite {c : Prop} [Decidable c] {x' : Parse α} {y' : Parse β}
    (h : C.Follows x y Q) (h' : C.Follows x' y' Q) :
    C.Follows (if c then x else x') (if c then y else y') Q := by
  split
  · exact h
  · exact h'

theorem Follows.mono {P : α → β → Prop} (h : C.Follows x y P) (hPQ : ∀ a b, P a b → Q a b) :
    C.Follows x y Q := by
  intro s s' hs
  refine ⟨fun hrun => ?_, (h s s' hs).error⟩
  rcases (h s s' hs).ok hrun with hlt | ⟨b, t', hb, ht, hab⟩
  · exact .inl hlt
  · exact .inr ⟨b, t', hb, ht, hPQ _ _ hab⟩

/-! ### Rules that end with a semicolon -/

theorem ClosesAt.of_follows_bind [hm : Moving x] [hf : ∀ a, Strict (f a)] (hs : C.streams s s')
    (h : C.FollowsAt s s' x y Q) (hfg : ∀ a b, Q a b → C.Closes (f a) (g b) Q') :
    C.ClosesAt s s' (x >>= f) (y >>= g) Q' where
  ok {c t} hrun := by
    obtain ⟨a, s1, ha, hc⟩ := bind_eq_ok.1 hrun
    rcases h.ok ha with hlt | ⟨b, s1', hb, hs1, hab⟩
    · have hstop := (hm.ok ha).stop_eq
      have := (hf a).weight_lt (hstop ▸ (C.stop_kind hs).1) hc
      exact .inl (by omega)
    · rw [bind_of_ok hb]
      exact (hfg a b hab s1 s1' hs1).ok hc
  error {e t} hrun := by
    rcases bind_eq_error.1 hrun with hx | ⟨a, s1, ha, he⟩
    · exact h.error hx
    · rcases h.ok ha with hlt | ⟨b, s1', -, hs1, hab⟩
      · exact C.reports_behind _ (Nat.zero_lt_of_lt hlt)
      · exact (hfg a b hab s1 s1' hs1).error he

theorem Follows.bind_closes [hm : Moving x] [hf : ∀ a, Strict (f a)] (h : C.Follows x y Q)
    (hfg : ∀ a b, Q a b → C.Closes (f a) (g b) Q') : C.Closes (x >>= f) (y >>= g) Q' :=
  fun s s' hs => .of_follows_bind hs (h s s' hs) hfg

theorem Follows.same_closes {x y : Parse α} {g : α → Parse β'} [hm : Moving x]
    [hf : ∀ a, Strict (f a)] (h : C.Follows x y Eq) (hfg : ∀ a, C.Closes (f a) (g a) Q') :
    C.Closes (x >>= f) (y >>= g) Q' := by
  refine h.bind_closes ?_
  rintro a _ rfl
  exact hfg a

theorem Follows.drop_closes {f : Unit → Parse α'} {g : Unit → Parse β'} [hm : Moving x]
    [hf : ∀ a, Strict (f a)] (h : C.Follows x y Q) (hfg : C.Closes (f ()) (g ()) Q') :
    C.Closes (Functor.discard x >>= f) (Functor.discard y >>= g) Q' :=
  h.discard.same_closes fun _ => hfg

/-- Where a value is made of what has been read, the rule still ends with the semicolon. -/
theorem Closes.pure_bind {f : α → α'} {g : β → β'} (h : C.Closes x y Q)
    (hfg : ∀ a b, Q a b → Q' (f a) (g b)) :
    C.Closes (x >>= fun a => pure (f a)) (y >>= fun b => pure (g b)) Q' := by
  intro s s' hs
  constructor
  · intro c t hrun
    obtain ⟨a, s1, ha, hc⟩ := bind_eq_ok.1 hrun
    cases hc
    rcases (h s s' hs).ok ha with hlt | ⟨b, s1', hb, ht, hab⟩
    · exact .inl hlt
    · exact .inr ⟨g b, s1', by rw [bind_of_ok hb]; rfl, ht, hfg a b hab⟩
  · intro e t hrun
    rcases bind_eq_error.1 hrun with hx | ⟨a, s1, -, he⟩
    · exact (h s s' hs).error hx
    · cases he

theorem Closes.ite {c : Prop} [Decidable c] {x' : Parse α} {y' : Parse β}
    (h : C.Closes x y Q) (h' : C.Closes x' y' Q) :
    C.Closes (if c then x else x') (if c then y else y') Q := by
  split
  · exact h
  · exact h'

/-- A rule that may end behind all that is compared is followed until it does. -/
theorem ClosesAt.followsAt (h : C.ClosesAt s s' x y Q) : C.FollowsAt s s' x y Q := by
  refine ⟨fun hrun => ?_, h.error⟩
  rcases h.ok hrun with hlt | ⟨b, t', hb, ht | ht, hab⟩
  · exact .inl (by omega)
  · exact .inr ⟨b, t', hb, ht, hab⟩
  · exact .inl (C.weight_lt ht)

theorem Closes.follows (h : C.Closes x y Q) : C.Follows x y Q :=
  fun s s' hs => (h s s' hs).followsAt

theorem FollowsAt.congr {x' : Parse α} {y' : Parse β} (h : C.FollowsAt s s' x y Q)
    (hx : x' s = x s) (hy : y' s' = y s') : C.FollowsAt s s' x' y' Q :=
  ⟨fun hrun => hy ▸ h.ok (hx ▸ hrun), fun hrun => h.error (hx ▸ hrun)⟩

end Sequences

/-! ## Single tokens -/

theorem follows_pure {a : α} {b : β} (h : Q a b) : C.Follows (pure a) (pure b) Q :=
  fun _ _ hs => ⟨by rintro _ _ ⟨⟩; exact .inr ⟨b, _, rfl, hs, h⟩, by rintro _ _ ⟨⟩⟩

theorem follows_fail {kind : ParseErrorKind} {span : Span} {message : String}
    (h : C.reports span) : C.Follows (fail kind span message) y Q :=
  fun _ _ _ => ⟨by rintro _ _ ⟨⟩, by rintro _ _ ⟨⟩; exact h⟩

theorem closes_fail {kind : ParseErrorKind} {span : Span} {message : String}
    (h : C.reports span) : C.Closes (fail kind span message) y Q :=
  fun _ _ _ => ⟨by rintro _ _ ⟨⟩, by rintro _ _ ⟨⟩; exact h⟩

theorem closes_throw {e : ParseError} (h : C.reports e.span) : C.Closes (throw e) y Q :=
  fun _ _ _ => ⟨by rintro _ _ ⟨⟩, by rintro _ _ ⟨⟩; exact h⟩

theorem follows_exhausted : C.Follows exhausted y Q :=
  fun _ _ hs => ⟨by rintro _ _ ⟨⟩, by rintro _ _ ⟨⟩; exact (C.peek hs).span.2⟩

theorem follows_peek : C.Follows Parse.peek Parse.peek C.Like :=
  fun _ _ hs => ⟨by rintro _ _ ⟨⟩; exact .inr ⟨_, _, rfl, hs, C.peek hs⟩, by rintro _ _ ⟨⟩⟩

theorem follows_check (k : Kind) : C.Follows (check k) (check k) Eq := by
  intro s s' hs
  refine ⟨?_, by rintro _ _ ⟨⟩⟩
  rintro _ _ ⟨⟩
  exact .inr ⟨_, s', rfl, hs, by rw [(C.peek hs).kind]⟩

theorem follows_splitShift :
    C.Follows (modify splitShift : Parse PUnit) (modify splitShift) Eq :=
  fun _ _ hs => ⟨by rintro _ _ ⟨⟩; exact .inr ⟨_, _, rfl, C.split hs, rfl⟩, by rintro _ _ ⟨⟩⟩

theorem follows_atTemplateClose : C.Follows atTemplateClose atTemplateClose Eq := by
  intro s s' hs
  refine ⟨?_, by rintro _ _ ⟨⟩⟩
  rintro _ _ ⟨⟩
  exact .inr ⟨_, s', rfl, hs, by rw [(C.peek hs).kind]⟩

/-- A rule that reads one token, or fails at it. -/
theorem follows_read {x : Parse α} {y : Parse β}
    (hok : ∀ {s s' a t}, s.peek.Like C.spans s'.peek → x s = .ok a t →
      t = s.advance ∧ ∃ b, y s' = .ok b s'.advance ∧ Q a b)
    (herror : ∀ {s e t}, x s = .error e t → e.span = s.peek.span) : C.Follows x y Q := by
  intro s s' hs
  refine ⟨fun hrun => ?_, fun hrun => ?_⟩
  · obtain ⟨rfl, b, hb, hab⟩ := hok (C.peek hs) hrun
    rcases C.advance hs with hlt | hadv
    · exact .inl hlt
    · exact .inr ⟨b, s'.advance, hb, hadv, hab⟩
  · rw [herror hrun]
    exact (C.peek hs).span.2

theorem follows_advance : C.Follows Parse.advance Parse.advance C.Like := by
  refine follows_read ?_ ?_
  · rintro s s' _ _ hl ⟨⟩
    exact ⟨rfl, s'.peek, rfl, hl⟩
  · rintro _ _ _ ⟨⟩

theorem follows_eat (k : Kind) : C.Follows (eat k) (eat k) Eq := by
  intro s s' hs
  have hk := (C.peek hs).kind
  refine ⟨fun hrun => ?_, fun hrun => ?_⟩
  · unfold eat at hrun ⊢
    rw [← hk]
    split at hrun
    · next h =>
      cases hrun
      rw [if_pos h]
      rcases C.advance hs with hlt | hadv
      · exact .inl hlt
      · exact .inr ⟨true, s'.advance, rfl, hadv, rfl⟩
    · next h =>
      cases hrun
      rw [if_neg h]
      exact .inr ⟨false, s', rfl, hs, rfl⟩
  · unfold eat at hrun
    split at hrun <;> cases hrun

theorem follows_expect (k : Kind) : C.Follows (expect k) (expect k) C.Like := by
  refine follows_read ?_ ?_
  · intro s s' t _ hl hrun
    obtain ⟨rfl, hk, rfl⟩ := yields_expect k t _ hrun
    refine ⟨rfl, s'.peek, ?_, hl⟩
    rw [expect]
    exact if_pos (hl.kind ▸ hk)
  · intro s e t hrun
    unfold expect at hrun
    dsimp only at hrun
    split at hrun
    · cases hrun
    · split at hrun <;> cases hrun <;> rfl

theorem follows_expectIdentifier : C.Follows expectIdentifier expectIdentifier Eq := by
  refine follows_read ?_ ?_
  · intro s s' n _ hl hrun
    obtain ⟨hk, rfl, rfl⟩ := yields_expectIdentifier n _ hrun
    refine ⟨rfl, s'.peek.lexeme, ?_, hl.lexeme⟩
    rw [expectIdentifier]
    exact if_pos (hl.kind ▸ hk)
  · intro s e t hrun
    unfold expectIdentifier at hrun
    dsimp only at hrun
    split at hrun
    · cases hrun
    · split at hrun <;> cases hrun <;> rfl

theorem follows_typeSegment : C.Follows typeSegment typeSegment Eq := by
  refine follows_read ?_ ?_
  · intro s s' n _ hl hrun
    unfold typeSegment at hrun ⊢
    dsimp only at hrun ⊢
    rw [← hl.kind, ← hl.lexeme]
    split at hrun
    · next hk =>
      cases hrun
      exact ⟨rfl, s.peek.lexeme, by rw [if_pos hk], rfl⟩
    · split at hrun <;> cases hrun
  · intro s e t hrun
    unfold typeSegment at hrun
    dsimp only at hrun
    split at hrun
    · cases hrun
    · split at hrun <;> cases hrun <;> rfl

/-! ### Tokens in front of other rules -/

section Look

variable {f : Token → Parse α'} {g : Token → Parse β'}

theorem ClosesAt.peek_bind (h : C.ClosesAt s s' (f s.peek) (g s'.peek) Q') :
    C.ClosesAt s s' (Parse.peek >>= f) (Parse.peek >>= g) Q' :=
  ⟨fun hrun => h.ok hrun, fun hrun => h.error hrun⟩

theorem closes_peek_bind (h : ∀ s s', C.streams s s' → C.ClosesAt s s' (f s.peek) (g s'.peek) Q') :
    C.Closes (Parse.peek >>= f) (Parse.peek >>= g) Q' :=
  fun s s' hs => .peek_bind (h s s' hs)

/-- The second tokens look alike, too, unless the first one is a semicolon. -/
theorem ClosesAt.checkSecond_bind {k : Kind} {f : Bool → Parse α'} {g : Bool → Parse β'}
    (hs : C.streams s s')
    (h : ∀ b b', (s.peek.kind ≠ .semicolon → b = b') → C.ClosesAt s s' (f b) (g b') Q') :
    C.ClosesAt s s' (checkSecond k >>= f) (checkSecond k >>= g) Q' := by
  have hb := h ((s.nth 1).kind == k) ((s'.nth 1).kind == k) fun hk => by rw [C.second hs hk]
  exact ⟨fun hrun => hb.ok hrun, fun hrun => hb.error hrun⟩

end Look

theorem previousSpan_advance {s : TokenStream} (h : s.peek.kind ≠ s.stop.kind) :
    s.advance.previousSpan = s.peek.span := by
  obtain ⟨past, ahead, stop⟩ := s
  cases ahead with
  | nil => exact absurd rfl h
  | cons t ts => rfl

/-- A token of kind `k`, behind which a place is known. -/
def ending (k : Kind) (start : Span) (make : Span → α) : Parse α := do
  discard (expect k)
  let span ← spanFrom start
  pure (make span)

section Ending

variable {k : Kind} {start start' : Span} {make : Span → α} {make' : Span → β}

theorem ending_of_peek (h : s.peek.kind = k) (hne : k ≠ s.stop.kind) :
    ending k start make s = .ok (make (start.merge s.peek.span)) s.advance := by
  have hread : (Functor.discard (expect k)) s = .ok () s.advance := by
    show EStateM.map (Function.const Token ()) (expect k) s = _
    rw [EStateM.map, expect]
    simp only [if_pos h]
  rw [ending, bind_of_ok hread]
  show EStateM.Result.ok (make (start.merge s.advance.previousSpan)) s.advance = _
  rw [previousSpan_advance (h ▸ hne)]

theorem ending_eq_ok {a : α} {t : TokenStream} (h : ending k start make s = .ok a t) :
    s.peek.kind = k := by
  refine (Yields.expect_bind (Q := fun _ _ => s.peek.kind = k) ?_) a t h
  exact fun hk _ _ _ => hk

theorem ending_eq_error {e : ParseError} {t : TokenStream} (h : ending k start make s = .error e t) :
    e.span = s.peek.span := by
  rcases bind_eq_error.1 h with h | ⟨u, s1, -, h⟩
  · have hmap : EStateM.map (Function.const Token ()) (expect k) s = .error e t := h
    unfold EStateM.map expect at hmap
    dsimp only at hmap
    by_cases hk : s.peek.kind = k
    · simp [hk] at hmap
    · by_cases he : s.peek.kind = .eof
      · simp only [if_neg hk, if_pos he] at hmap
        cases hmap
        rfl
      · simp only [if_neg hk, if_neg he] at hmap
        cases hmap
        rfl
  · cases h

theorem follows_ending (hk : k ≠ .eof) (hstart : C.spans start start')
    (hmake : ∀ a b, C.spans a b → Q (make a) (make' b)) :
    C.Follows (ending k start make) (ending k start' make') Q := by
  intro s s' hs
  obtain ⟨hstop, hstop'⟩ := C.stop_kind hs
  have hpeek := C.peek hs
  refine ⟨fun hrun => ?_, fun hrun => ?_⟩
  · have h := ending_eq_ok hrun
    rw [ending_of_peek h (hstop ▸ hk)] at hrun
    cases hrun
    rw [ending_of_peek (hpeek.kind ▸ h) (hstop' ▸ hk)]
    rcases C.advance hs with hlt | hadv
    · exact .inl hlt
    · exact .inr ⟨_, _, rfl, hadv, hmake _ _ (C.merge hstart hpeek.span)⟩
  · rw [ending_eq_error hrun]
    exact hpeek.span.2

/-- The end of a declaration: a semicolon, behind which its place is known. -/
theorem closes_end (hstart : C.spans start start')
    (hmake : ∀ a b, C.spans a b → Q (make a) (make' b)) :
    C.Closes (ending .semicolon start make) (ending .semicolon start' make') Q := by
  intro s s' hs
  obtain ⟨hstop, hstop'⟩ := C.stop_kind hs
  have hpeek := C.peek hs
  refine ⟨fun hrun => ?_, fun hrun => ?_⟩
  · have h := ending_eq_ok hrun
    rw [ending_of_peek h (hstop ▸ by decide)] at hrun
    cases hrun
    rw [ending_of_peek (hpeek.kind ▸ h) (hstop' ▸ by decide)]
    exact .inr ⟨_, _, rfl, C.close hs h, hmake _ _ (C.merge hstart hpeek.span)⟩
  · rw [ending_eq_error hrun]
    exact hpeek.span.2

end Ending

/-! ## Repetition -/

/-- A rule that uses itself follows another one if its body does. -/
theorem follows_fix {ι κ : Type} {rule : (ι → Parse α) → ι → Parse α}
    {rule' : (κ → Parse β) → κ → Parse β} {I : ι → κ → Prop} {P : ι → κ → α → β → Prop}
    (hstep : ∀ j {s}, s.stop.kind = .eof → fix rule' j s = rule' (fix rule') j s)
    (hmoving : ∀ self, (∀ i, Moving (self i)) → ∀ i, Moving (rule self i))
    (h : ∀ f, (∀ i, Moving (f i)) → (∀ i j, I i j → C.Follows (f i) (fix rule' j) (P i j)) →
      ∀ i j, I i j → C.Follows (rule f i) (rule' (fix rule') j) (P i j))
    {i : ι} {j : κ} (hij : I i j) : C.Follows (fix rule i) (fix rule' j) (P i j) := by
  have hunfold : ∀ n i j, I i j → C.Follows (unfold rule n i) (fix rule' j) (P i j) := by
    intro n
    induction n with
    | zero => exact fun i j _ => follows_exhausted
    | succ n ih =>
      intro i j hij s s' hs
      have hrun := h _ (moving_unfold hmoving n) ih i j hij s s' hs
      refine ⟨fun hr => ?_, fun hr => hrun.error hr⟩
      rw [hstep j (C.stop_kind hs).2]
      exact hrun.ok hr
  exact fun s s' hs => ⟨fun hr => (hunfold _ i j hij s s' hs).ok hr,
    fun hr => (hunfold _ i j hij s s' hs).error hr⟩

section Repetition

theorem follows_manyWhile [Moving x] [Moving y] [Strict y] {more : TokenStream → Bool}
    (hmore : ∀ s s', C.streams s s' → more s = more s') (h : C.Follows x y Q) :
    C.Follows (manyWhile more x) (manyWhile more y) (List.Forall₂ Q) := by
  rw [manyWhile_eq, manyWhile_eq]
  refine follows_fix (I := fun _ _ => True) (P := fun _ _ => List.Forall₂ Q)
    (fun j s hs => manyWhile_step more hs) (fun _ _ => inferInstance) ?_ trivial
  intro f hf hself i j _ s s' hs
  have hnext : C.Follows
      (do
        let a ← x
        let as ← f ()
        pure (a :: as))
      (do
        let b ← y
        let bs ← fix (manyRule more y) ()
        pure (b :: bs)) (List.Forall₂ Q) :=
    h.bind fun a b hab => (hself () () trivial).bind fun as bs hs => follows_pure (.cons hab hs)
  have hrun := (Follows.ite (c := more s = true) hnext (follows_pure .nil)) s s' hs
  refine ⟨fun hr => ?_, fun hr => hrun.error hr⟩
  obtain h | ⟨bs, t', hy, ht⟩ := hrun.ok hr
  · exact .inl h
  · refine .inr ⟨bs, t', ?_, ht⟩
    rw [hmore s s' hs] at hy
    exact hy

theorem follows_commaSeparated [Moving x] [Moving y] (h : C.Follows x y Q) :
    C.Follows (commaSeparated x) (commaSeparated y) (List.Forall₂ Q) := by
  rw [commaSeparated_eq, commaSeparated_eq]
  refine follows_fix (I := fun _ _ => True) (P := fun _ _ => List.Forall₂ Q)
    (fun j s hs => commaSeparated_step hs) (fun _ _ => inferInstance) ?_ trivial
  intro f hf hself i j _
  refine h.bind fun a b hab => (follows_eat .comma).same fun c => .ite ?_ ?_
  · exact (hself () () trivial).bind fun as bs hs => follows_pure (.cons hab hs)
  · exact follows_pure (.cons hab .nil)

/-- A list of which the items are the same in both runs. -/
theorem follows_commaSeparated_same {x y : Parse α} [Moving x] [Moving y] (h : C.Follows x y Eq) :
    C.Follows (commaSeparated x) (commaSeparated y) Eq :=
  (follows_commaSeparated h).mono fun _ _ hab => List.forall₂_eq_eq_eq ▸ hab

end Repetition

/-! ## Types -/

theorem follows_path : C.Follows path path Eq := by
  have hmore : ∀ s s', C.streams s s' → pathContinues s = pathContinues s' := by
    intro s s' hs
    unfold pathContinues
    rw [← (C.peek hs).kind]
    by_cases hk : s.peek.kind = .colonColon
    · rw [C.second hs (by rw [hk]; decide)]
    · rw [beq_eq_false_iff_ne.2 hk, Bool.false_and, Bool.false_and]
  refine (follows_eat .colonColon).drop ?_
  refine follows_typeSegment.same fun first => ?_
  have hitem : C.Follows
      (do
        discard Parse.advance
        typeSegment)
      (do
        discard Parse.advance
        typeSegment) Eq :=
    follows_advance.drop follows_typeSegment
  refine ((follows_manyWhile hmore hitem).mono fun _ _ hab => ?_).same fun rest => follows_pure rfl
  exact List.forall₂_eq_eq_eq ▸ hab

theorem follows_basicTypename : C.Follows basicTypename basicTypename Eq := by
  refine follows_advance.bind fun t t' ht => ?_
  rw [← ht.kind, ← ht.lexeme]
  refine .ite ?_ (follows_pure rfl)
  exact (follows_expect .kwChar).drop (follows_pure rfl)

theorem follows_templateClose : C.Follows templateClose templateClose Eq := by
  refine follows_splitShift.same fun _ => (follows_eat .greater).same fun b => ?_
  refine .ite (follows_pure rfl) ?_
  exact follows_peek.bind fun t t' ht => follows_fail ht.span.2

theorem follows_bracketed [Moving x] [Moving y] (whenEmpty : String) (h : C.Follows x y Q) :
    C.Follows (bracketed whenEmpty x) (bracketed whenEmpty y) (List.Forall₂ Q) := by
  refine (follows_expect .less).bind fun t t' ht => ?_
  refine follows_atTemplateClose.same fun b => .ite (follows_fail ht.span.2) ?_
  refine (follows_commaSeparated h).bind fun as bs hs => ?_
  exact follows_templateClose.same fun _ => follows_pure hs

theorem follows_typenameWith {arg arg' : Parse TypeExpr} [Moving arg] [Moving arg']
    (h : C.Follows arg arg' Eq) (inArgs : Bool) :
    C.Follows (typenameWith arg inArgs) (typenameWith arg' inArgs) Eq := by
  refine follows_peek.bind fun t t' ht => ?_
  rw [← ht.kind, ← ht.lexeme]
  refine .ite follows_basicTypename (.ite ?_ ?_)
  · exact follows_advance.drop (follows_pure rfl)
  · refine follows_path.same fun p => (follows_check .less).same fun b => .ite ?_ ?_
    · refine (follows_bracketed _ h).bind fun as bs hs => follows_pure ?_
      rw [List.forall₂_eq_eq_eq] at hs
      rw [hs]
    · exact follows_pure rfl

theorem follows_indirection : C.Follows indirection indirection Eq := by
  refine (follows_eat .star).same fun b => .ite (follows_pure rfl) ?_
  refine (follows_eat .atSign).same fun b => .ite (follows_pure rfl) ?_
  exact (follows_eat .amp).same fun b => .ite (follows_pure rfl) (follows_pure rfl)

theorem follows_typeIn (inArgs : Bool) : C.Follows (typeIn inArgs) (typeIn inArgs) Eq := by
  refine follows_fix (I := Eq) (P := fun _ _ => Eq) (fun j s hs => typeIn_step j hs)
    (fun _ _ => inferInstance) ?_ rfl
  rintro f hf hself i _ rfl
  have hmoving : Moving (typeIn true) := inferInstance
  refine (follows_eat .kwConst).same fun isConst => ?_
  refine (@follows_typenameWith C (f true) (typeIn true) _ hmoving (hself true true rfl) i).same
    fun name => ?_
  exact follows_indirection.same fun sign => follows_pure rfl

theorem follows_typeUse : C.Follows typeUse typeUse Eq := follows_typeIn false

theorem follows_typename : C.Follows typename typename Eq :=
  follows_typenameWith (follows_typeIn true) false

theorem follows_returnType : C.Follows returnType returnType Eq :=
  follows_typeUse.same fun _ => follows_pure rfl

/-! ## Headers and arguments -/

theorem follows_choices : C.Follows choices choices Eq := by
  refine (follows_eat .equal).same fun b => .ite ?_ (follows_pure rfl)
  refine (follows_expect .leftBrace).drop ?_
  have hclose : ∀ types : List TypeExpr, C.Follows
      (do
        discard (expect .rightBrace)
        pure types)
      (do
        discard (expect .rightBrace)
        pure types) Eq :=
    fun types => (follows_expect .rightBrace).drop (follows_pure rfl)
  refine (follows_check .rightBrace).same fun b => .ite ?_ ?_
  · exact Follows.same (follows_pure rfl) hclose
  · exact (follows_commaSeparated_same follows_typeUse).same hclose

theorem follows_templateParam : C.Follows templateParam templateParam Eq :=
  follows_expectIdentifier.same fun _ => follows_choices.same fun _ => follows_pure rfl

theorem follows_templateHeader : C.Follows templateHeader templateHeader Eq := by
  refine (follows_expect .kwTemplate).drop ?_
  refine (follows_bracketed _ follows_templateParam).bind fun ps qs h => follows_pure ?_
  rw [List.forall₂_eq_eq_eq] at h
  rw [h]

theorem follows_defaultValue : C.Follows defaultValue defaultValue Eq := by
  intro s s' hs
  refine ⟨fun hrun => ?_, fun hrun => ?_⟩
  · unfold defaultValue at hrun ⊢
    split at hrun
    · cases hrun
    · next ts hne hts =>
      cases hrun
      rcases C.capture hs hts with hlt | ⟨ts', hts', hlen, htext, ht⟩
      · exact .inl hlt
      · refine .inr ⟨textOf ts, s'.skip ts'.length, ?_, hlen ▸ ht, rfl⟩
        rw [hts', ← htext]
        cases ts' with
        | nil =>
          cases ts with
          | nil => exact absurd rfl hne
          | cons => cases hlen
        | cons => rfl
    · cases hrun
    · cases hrun
  · unfold defaultValue at hrun
    split at hrun
    · cases hrun
      exact (C.peek hs).span.2
    · cases hrun
    · cases hrun
      exact C.reports_ahead hs _ (by simp)
    · next t ht =>
      cases hrun
      exact C.reports_ahead hs t (List.mem_cons_of_mem _ (mem_of_capture ht))

theorem follows_optionalDefault : C.Follows optionalDefault optionalDefault Eq :=
  (follows_eat .equal).same fun _ => .ite
    (follows_defaultValue.same fun _ => follows_pure rfl) (follows_pure rfl)

theorem follows_argument : C.Follows argument argument Eq :=
  follows_typeUse.same fun _ => follows_expectIdentifier.same fun _ =>
    follows_optionalDefault.same fun _ => follows_pure rfl

theorem follows_arguments : C.Follows arguments arguments Eq := by
  refine follows_peek.bind fun t t' ht => ?_
  rw [← ht.kind, ← ht.lexeme]
  refine .ite ?_ (follows_fail ht.span.2)
  refine follows_advance.drop ?_
  refine (follows_eat .rightParen).same fun b => .ite (follows_pure rfl) ?_
  refine (follows_commaSeparated_same follows_argument).same fun args => ?_
  exact (follows_expect .rightParen).drop (follows_pure rfl)

end Comparison

end TemplateIdl
