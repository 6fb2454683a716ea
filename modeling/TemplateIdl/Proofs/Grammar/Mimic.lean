import TemplateIdl.Proofs.Grammar.Compare

/-!
# Mimic — two streams that begin alike

* `Matching`, places of two texts that mean the same, and `Matching.Parallel`, tokens at such
  places with the same text in and between them;
* `DefaultValue.closesAngle_of_semicolon` and `DefaultValue.ends_of_capture`, no search for the end
  of a bracket looks behind a semicolon;
* `Matching.Alongside`, two streams that begin with parallel tokens up to a semicolon, and
  `Comparison.mimic`, what rules can see of them is the same.
-/

namespace TemplateIdl

open TokenStream DefaultValue

/-- Which places of two texts mean the same: those that are mapped to the same place. -/
structure Matching where
  left : Span → Span
  right : Span → Span
  merge {a a' b b' : Span} : left a = right a' → left b = right b' →
    left (a.merge b) = right (a'.merge b')

/-! ## Searches that end at a semicolon -/

namespace DefaultValue

variable {us us' rest rest' ds : List Token} {openers : List Kind} {last? : Option Kind}

/-- The search for a closing bracket does not look behind a semicolon. -/
theorem closesAngle_of_semicolon (hk : us.map Token.kind = us'.map Token.kind)
    (hs : Kind.semicolon ∈ us.map Token.kind) (a b : Nat) :
    closesAngle a b (us ++ rest) = closesAngle a b (us' ++ rest') := by
  induction us generalizing us' a b with
  | nil => cases hs
  | cons u us ih =>
    obtain ⟨u', us', rfl⟩ := List.exists_cons_of_ne_nil (l := us') (by rintro rfl; cases hk)
    rw [List.map_cons, List.map_cons, List.cons.injEq] at hk
    refine closesAngle_congr hk.1 rfl fun a' b' hstep => ?_
    rcases List.mem_cons.1 hs with hu | hs
    · rw [← hk.1, ← hu] at hstep
      cases hstep
    · exact ih hk.2 hs (a' + 1) b'

/-- Behind the tokens of a default stands one that ends it. -/
theorem ends_of_capture (h : capture openers last? (ds ++ rest) = .ok ds) (hne : rest ≠ []) :
    Ends rest := by
  induction ds generalizing openers last? with
  | nil =>
    obtain ⟨t, ts, rfl⟩ := List.exists_cons_of_ne_nil hne
    rw [List.nil_append, capture] at h
    split at h
    · next hend =>
      rw [Bool.and_eq_true] at hend
      exact hend.2
    split at h
    · cases h
    · next openers' _ =>
      rcases hc : capture openers' (some t.kind) ts with e | us <;> rw [hc] at h <;> cases h
  | cons d ds ih =>
    obtain ⟨-, openers', -, hc⟩ := capture_append h
    exact ih hc

end DefaultValue

/-- The value of an enumerator is told by the kinds of its tokens. -/
theorem Parse.length_takeWhile_isValueToken {us us' rest rest' : List Token}
    (hk : us.map Token.kind = us'.map Token.kind)
    (h : ((us ++ rest).takeWhile isValueToken).length < us.length) :
    ((us' ++ rest').takeWhile isValueToken).length =
      ((us ++ rest).takeWhile isValueToken).length := by
  induction us generalizing us' with
  | nil => cases h
  | cons u us ih =>
    obtain ⟨u', us', rfl⟩ := List.exists_cons_of_ne_nil (l := us') (by rintro rfl; cases hk)
    rw [List.map_cons, List.map_cons, List.cons.injEq] at hk
    have hvalue : isValueToken u' = isValueToken u := by rw [isValueToken, isValueToken, hk.1]
    rw [List.cons_append, List.cons_append, List.takeWhile_cons, List.takeWhile_cons, hvalue]
    rw [List.cons_append, List.takeWhile_cons] at h
    split
    · next hu =>
      rw [if_pos hu, List.length_cons, List.length_cons] at h
      rw [List.length_cons, List.length_cons, ih hk.2 (by omega)]
    · rfl

theorem Token.totalWeight_drop_le (ts : List Token) (n : Nat) :
    totalWeight (ts.drop n) ≤ totalWeight ts := by
  conv_rhs => rw [← List.take_append_drop n ts, totalWeight_append]
  exact Nat.le_add_left _ _

/-! ## Parallel tokens -/

namespace Matching

variable (M : Matching)

/-- The tokens stand at places that mean the same, and so do the halves of shifts. -/
structure Twin (t t' : Token) : Prop extends t.Like (fun a b => M.left a = M.right b) t' where
  halves : t.kind = .greaterGreater →
    M.left (firstHalf t).span = M.right (firstHalf t').span ∧
      M.left (secondHalf t).span = M.right (secondHalf t').span

/-- Tokens that differ in their places only, and in the gap before the first one. -/
structure Parallel (xs xs' : List Token) : Prop where
  twins : List.Forall₂ M.Twin xs xs'
  gaps : xs.tail.map Token.gap = xs'.tail.map Token.gap

namespace Parallel

variable {M} {t t' : Token} {xs xs' ys zs : List Token}

theorem kinds (h : M.Parallel xs xs') : xs.map Token.kind = xs'.map Token.kind := by
  obtain ⟨h, -⟩ := h
  induction h with
  | nil => rfl
  | cons ht _ ih => rw [List.map_cons, List.map_cons, ht.kind, ih]

theorem length (h : M.Parallel xs xs') : xs.length = xs'.length := h.twins.length_eq

theorem cons_iff : M.Parallel (t :: xs) (t' :: xs') ↔
    M.Twin t t' ∧ M.Parallel xs xs' ∧ xs.map Token.gap = xs'.map Token.gap := by
  constructor
  · rintro ⟨htwins, hgaps⟩
    obtain ⟨ht, hxs⟩ := List.forall₂_cons.1 htwins
    rw [List.tail_cons, List.tail_cons] at hgaps
    exact ⟨ht, ⟨hxs, by rw [List.map_tail, List.map_tail, hgaps]⟩, hgaps⟩
  · rintro ⟨ht, hxs, hgaps⟩
    exact ⟨.cons ht hxs.twins, hgaps⟩

theorem exists_cons (h : M.Parallel (t :: xs) zs) : ∃ t' xs', zs = t' :: xs' ∧
    M.Twin t t' ∧ M.Parallel xs xs' ∧ xs.map Token.gap = xs'.map Token.gap := by
  obtain ⟨t', xs', -, -, rfl⟩ := List.forall₂_cons_left_iff.1 h.twins
  exact ⟨t', xs', rfl, cons_iff.1 h⟩

/-- Parallel tokens can be cut anywhere. -/
theorem split (h : M.Parallel (xs ++ ys) zs) :
    ∃ xs' ys', zs = xs' ++ ys' ∧ M.Parallel xs xs' ∧ M.Parallel ys ys' := by
  induction xs generalizing zs with
  | nil => exact ⟨[], zs, rfl, ⟨.nil, rfl⟩, h⟩
  | cons t xs ih =>
    rw [List.cons_append] at h
    obtain ⟨t', us, rfl, ht, hus, hgaps⟩ := h.exists_cons
    obtain ⟨xs', ys', rfl, hxs, hys⟩ := ih hus
    rw [List.map_append, List.map_append] at hgaps
    have hlength : (xs.map Token.gap).length = (xs'.map Token.gap).length := by
      rw [List.length_map, List.length_map, hxs.length]
    exact ⟨t' :: xs', ys', rfl, cons_iff.2 ⟨ht, hxs, (List.append_inj hgaps hlength).1⟩, hys⟩

theorem texts_eq (h : List.Forall₂ M.Twin xs xs') (hgaps : xs.map Token.gap = xs'.map Token.gap) :
    xs.map (fun u => u.gap ++ u.lexeme) = xs'.map (fun u => u.gap ++ u.lexeme) := by
  induction h with
  | nil => rfl
  | cons hu _ ih =>
    rw [List.map_cons, List.map_cons, List.cons.injEq] at hgaps
    rw [List.map_cons, List.map_cons, hgaps.1, hu.lexeme, ih hgaps.2]

/-- Parallel tokens have the same text. -/
theorem textOf_eq (h : M.Parallel xs xs') : textOf xs = textOf xs' := by
  cases xs with
  | nil => rw [List.forall₂_nil_left_iff.1 h.twins]
  | cons t xs =>
    obtain ⟨t', xs', rfl, ht, hxs, hgaps⟩ := h.exists_cons
    rw [textOf, textOf, ht.lexeme, texts_eq hxs.twins hgaps]

end Parallel

/-! ## Streams that begin with parallel tokens -/

/-- The streams begin with parallel tokens, of which the last one is a semicolon. Behind them
stand `rest` and `rest'`. -/
structure Alongside (rest rest' : List Token) (s s' : TokenStream) : Prop where
  stops : s.stop.kind = .eof ∧ s'.stop.kind = .eof
  front : ∃ us us', s.ahead = us ++ rest ∧ s'.ahead = us' ++ rest' ∧ M.Parallel us us' ∧
    us.getLast?.map Token.kind = some .semicolon

namespace Alongside

variable {M} {rest rest' : List Token} {s s' : TokenStream}

theorem exists_cons (h : M.Alongside rest rest' s s') : ∃ t t' us us',
    s.ahead = t :: (us ++ rest) ∧ s'.ahead = t' :: (us' ++ rest') ∧
    M.Twin t t' ∧ M.Parallel us us' ∧ us.map Token.gap = us'.map Token.gap ∧
    (us = [] ∧ t.kind = .semicolon ∨ us.getLast?.map Token.kind = some .semicolon) := by
  obtain ⟨-, us, us', hs, hs', hus, hlast⟩ := h
  obtain ⟨t, us, rfl⟩ := List.exists_cons_of_ne_nil (l := us) (by rintro rfl; cases hlast)
  obtain ⟨t', us', rfl, ht, hus, hgaps⟩ := hus.exists_cons
  refine ⟨t, t', us, us', hs, hs', ht, hus, hgaps, ?_⟩
  cases us with
  | nil => exact .inl ⟨rfl, Option.some.inj hlast⟩
  | cons u us =>
    rw [List.getLast?_cons_cons] at hlast
    exact .inr hlast

theorem peek (h : M.Alongside rest rest' s s') : M.Twin s.peek s'.peek := by
  obtain ⟨t, t', us, us', hs, hs', ht, -⟩ := h.exists_cons
  obtain ⟨past, ahead, stop⟩ := s
  obtain ⟨past', ahead', stop'⟩ := s'
  cases hs
  cases hs'
  exact ht

theorem second (h : M.Alongside rest rest' s s') (hk : s.peek.kind ≠ .semicolon) :
    (s.nth 1).kind = (s'.nth 1).kind := by
  obtain ⟨t, t', us, us', hs, hs', -, hus, -, hlast⟩ := h.exists_cons
  obtain ⟨past, ahead, stop⟩ := s
  obtain ⟨past', ahead', stop'⟩ := s'
  cases hs
  cases hs'
  cases us with
  | nil =>
    rcases hlast with ⟨-, ht⟩ | hlast
    · exact absurd ht hk
    · cases hlast
  | cons u us =>
    obtain ⟨u', us', rfl, hu, -⟩ := hus.exists_cons
    exact hu.kind

theorem advance (h : M.Alongside rest rest' s s') :
    s.peek.kind = .semicolon ∧ s.advance.ahead = rest ∧ s'.advance.ahead = rest' ∨
      M.Alongside rest rest' s.advance s'.advance := by
  obtain ⟨t, t', us, us', hs, hs', -, hus, -, hlast⟩ := h.exists_cons
  obtain ⟨hstops, -⟩ := h
  obtain ⟨past, ahead, stop⟩ := s
  obtain ⟨past', ahead', stop'⟩ := s'
  cases hs
  cases hs'
  rcases hlast with ⟨rfl, ht⟩ | hlast
  · rw [List.forall₂_nil_left_iff.1 hus.twins]
    exact .inl ⟨ht, rfl, rfl⟩
  · exact .inr ⟨hstops, us, us', rfl, rfl, hus, hlast⟩

theorem split (h : M.Alongside rest rest' s s') :
    M.Alongside rest rest' s.splitShift s'.splitShift := by
  obtain ⟨t, t', us, us', hs, hs', ht, hus, hgaps, hlast⟩ := h.exists_cons
  obtain ⟨past, ahead, stop⟩ := s
  obtain ⟨past', ahead', stop'⟩ := s'
  cases hs
  cases hs'
  by_cases hk : t.kind = .greaterGreater
  · have hsplit : splitShift ⟨past, t :: (us ++ rest), stop⟩ =
        ⟨past, (firstHalf t :: secondHalf t :: us) ++ rest, stop⟩ := if_pos hk
    have hsplit' : splitShift ⟨past', t' :: (us' ++ rest'), stop'⟩ =
        ⟨past', (firstHalf t' :: secondHalf t' :: us') ++ rest', stop'⟩ := if_pos (ht.kind ▸ hk)
    obtain ⟨h1, h2⟩ := ht.halves hk
    rw [hsplit, hsplit']
    refine ⟨h.stops, _, _, rfl, rfl, ?_, ?_⟩
    · -- the halves are no shifts
      refine Parallel.cons_iff.2 ⟨⟨⟨rfl, rfl, h1⟩, nofun⟩, ?_, congrArg ("" :: ·) hgaps⟩
      exact Parallel.cons_iff.2 ⟨⟨⟨rfl, rfl, h2⟩, nofun⟩, hus, hgaps⟩
    · rcases hlast with ⟨-, ht⟩ | hlast
      · rw [hk] at ht
        cases ht
      · obtain ⟨u, us, rfl⟩ := List.exists_cons_of_ne_nil (l := us) (by rintro rfl; cases hlast)
        exact hlast
  · have hsplit : splitShift ⟨past, t :: (us ++ rest), stop⟩ = ⟨past, t :: (us ++ rest), stop⟩ :=
      if_neg hk
    have hsplit' : splitShift ⟨past', t' :: (us' ++ rest'), stop'⟩ =
        ⟨past', t' :: (us' ++ rest'), stop'⟩ := if_neg (ht.kind ▸ hk)
    rw [hsplit, hsplit']
    exact h

/-- Reading `n` tokens reads all parallel ones, or leaves some of them, the semicolon included. -/
theorem skip {us us' : List Token} (hstops : s.stop.kind = .eof ∧ s'.stop.kind = .eof)
    (hs : s.ahead = us ++ rest) (hs' : s'.ahead = us' ++ rest') (hus : M.Parallel us us')
    (hlast : us.getLast?.map Token.kind = some .semicolon) (n : Nat) :
    us.length ≤ n ∧ (s.skip n).weight ≤ Token.totalWeight rest ∨
      n < us.length ∧ M.Alongside rest rest' (s.skip n) (s'.skip n) := by
  rcases Nat.lt_or_ge n us.length with hn | hn
  · have hcut := List.take_append_drop n us
    rw [← hcut] at hus
    obtain ⟨vs, ws, rfl, hvs, hws⟩ := hus.split
    have hlength := hvs.length
    rw [List.length_take, Nat.min_eq_left (Nat.le_of_lt hn)] at hlength
    refine .inr ⟨hn, hstops, us.drop n, ws, ?_, ?_, hws, ?_⟩
    · rw [TokenStream.skip, hs]
      exact List.drop_append_of_le_length (Nat.le_of_lt hn)
    · rw [TokenStream.skip, hs', hlength, List.append_assoc]
      exact List.drop_left
    · rw [List.getLast?_drop, if_neg (Nat.not_le_of_lt hn), hlast]
  · refine .inl ⟨hn, ?_⟩
    rw [weight, TokenStream.skip, hs]
    dsimp only
    rw [List.drop_append, List.drop_eq_nil_of_le hn, List.nil_append]
    exact Token.totalWeight_drop_le rest _

theorem capture {ts : List Token} (h : M.Alongside rest rest' s s')
    (hts : capture [] none s.ahead = .ok ts) :
    (s.skip ts.length).weight ≤ Token.totalWeight rest ∨
      ∃ ts', DefaultValue.capture [] none s'.ahead = .ok ts' ∧ ts'.length = ts.length ∧
        textOf ts' = textOf ts ∧ M.Alongside rest rest' (s.skip ts.length) (s'.skip ts.length) := by
  obtain ⟨hstops, us, us', hs, hs', hus, hlast⟩ := h
  rcases skip hstops hs hs' hus hlast ts.length with ⟨-, hle⟩ | ⟨hlt, hskip⟩
  · exact .inl hle
  rw [hs] at hts
  obtain ⟨vs, rfl⟩ : ts <+: us :=
    List.prefix_of_prefix_length_le (isPrefix_of_capture hts) (List.prefix_append us rest)
      (Nat.le_of_lt hlt)
  obtain ⟨ts', vs', rfl, hparallel, hvs⟩ := hus.split
  have hne : vs ≠ [] := by
    rintro rfl
    simp at hlt
  -- the semicolon stands behind the default
  obtain ⟨e, hlast, hk⟩ := Option.map_eq_some_iff.1 hlast
  have hmem : Kind.semicolon ∈ vs.map Token.kind := by
    rw [List.getLast?_append_of_ne_nil _ hne] at hlast
    exact List.mem_map.2 ⟨e, List.mem_of_getLast? hlast, hk⟩
  have halike : ClosesAlike (vs ++ rest) (vs' ++ rest') :=
    fun a => closesAngle_of_semicolon hvs.kinds hmem (a + 1) 0
  rw [List.append_assoc] at hts
  have hend : Ends (vs' ++ rest') := by
    have hends := ends_of_capture hts (by simp [hne])
    obtain ⟨v, vs, rfl⟩ := List.exists_cons_of_ne_nil hne
    obtain ⟨v', vs', rfl, hv, -⟩ := hvs.exists_cons
    have hhead : headKind (v' :: vs' ++ rest') = headKind (v :: vs ++ rest) := hv.kind.symm
    rwa [Ends, hhead]
  refine .inr ⟨ts', ?_, hparallel.length.symm, hparallel.textOf_eq.symm, hskip⟩
  rw [hs', List.append_assoc]
  exact capture_congr hts hparallel.kinds halike hend

theorem value {n : Nat} (h : M.Alongside rest rest' s s')
    (hn : (s.ahead.takeWhile Parse.isValueToken).length = n) :
    (s.skip n).weight ≤ Token.totalWeight rest ∨
      (s'.ahead.takeWhile Parse.isValueToken).length = n ∧
        M.Alongside rest rest' (s.skip n) (s'.skip n) := by
  obtain ⟨hstops, us, us', hs, hs', hus, hlast⟩ := h
  rcases skip hstops hs hs' hus hlast n with ⟨-, hle⟩ | ⟨hlt, hskip⟩
  · exact .inl hle
  · rw [hs] at hn
    subst hn
    refine .inr ⟨?_, hskip⟩
    rw [hs']
    exact Parse.length_takeWhile_isValueToken hus.kinds hlt

end Alongside

end Matching

/-- Two streams that begin with parallel tokens up to a semicolon. The first run stands in the
namespaces `path` besides those of the second one. -/
def Comparison.mimic (M : Matching) (path : List String) (rest rest' : List Token) :
    Comparison where
  left := M.left
  right := M.right
  spaces ns := path ++ ns
  reports _ := True
  streams := M.Alongside rest rest'
  limit := Token.totalWeight rest + 1
  finished s s' := s.ahead = rest ∧ s'.ahead = rest'
  merge ha hb := ⟨M.merge ha.1 hb.1, trivial⟩
  stop_kind h := h.stops
  peek h := ⟨h.peek.kind, h.peek.lexeme, h.peek.span, trivial⟩
  second h := h.second
  advance h := by
    rcases h.advance with ⟨-, hs, -⟩ | h
    · left
      rw [weight, hs]
      exact Nat.lt_succ_self _
    · exact .inr h
  split h := h.split
  capture h hts := (h.capture hts).imp_left Nat.lt_succ_of_le
  value h hn := (h.value hn).imp_left Nat.lt_succ_of_le
  close h _ := by
    rcases h.advance with ⟨-, hs⟩ | h
    · exact .inr hs
    · exact .inl h
  weight_lt h := by
    rw [weight, h.1]
    exact Nat.lt_succ_self _
  reports_ahead _ _ _ := trivial
  reports_behind _ _ := trivial

end TemplateIdl
