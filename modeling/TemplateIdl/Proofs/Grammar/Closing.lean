import TemplateIdl.Grammar.Default
import TemplateIdl.Proofs.Grammar.Sound

/-!
# Closing — how far the search for a closing bracket looks

Whether a `<` in a default opens a bracket depends on the tokens behind the default. A printer
may write them in another way; that the answer stays the same is shown here.

* `ClosesAlike`, two lists of tokens in which the search ends alike;
* `Spells.closesAngle_eq`, shifts and closing brackets do not matter;
* `Transparent`, words that the search passes, such as those of type uses;
* `Parse.yields_typeUse_alike`, reading a type use passes words of that kind.
-/

namespace TemplateIdl

/-- Behind an open angle bracket the search for its end gives the same answer in both lists. -/
def ClosesAlike (ts us : List Token) : Prop :=
  ∀ a, closesAngle (a + 1) 0 ts = closesAngle (a + 1) 0 us

namespace ClosesAlike

variable {ts us vs : List Token}

theorem refl (ts : List Token) : ClosesAlike ts ts := fun _ => rfl

theorem symm (h : ClosesAlike ts us) : ClosesAlike us ts := fun a => (h a).symm

theorem trans (h : ClosesAlike ts us) (h' : ClosesAlike us vs) : ClosesAlike ts vs :=
  fun a => (h a).trans (h' a)

end ClosesAlike

/-! ## Single tokens -/

/-- The search passes a token of this kind without counting it. -/
def Kind.IsNeutral (k : Kind) : Prop := ∀ a b, angleStep a b k = some (a, b)

theorem closesAngle_neutral {t : Token} (h : t.kind.IsNeutral) (a b : Nat) (ts : List Token) :
    closesAngle (a + 1) b (t :: ts) = closesAngle (a + 1) b ts := by
  rw [closesAngle, h (a + 1) b]
  rfl

/-- The search ends where the bracket around it closes or the declaration ends. -/
theorem closesAngle_stop {t : Token} (h : t.kind = .rightParen ∨ t.kind = .semicolon) (a : Nat)
    (ts : List Token) : closesAngle a 0 (t :: ts) = false := by
  rw [closesAngle]
  rcases h with h | h
  · rw [h]; rfl
  · rw [h]; rfl

theorem closesAngle_less {t : Token} (h : t.kind = .less) (a : Nat) (ts : List Token) :
    closesAngle (a + 1) 0 (t :: ts) = closesAngle (a + 2) 0 ts := by
  rw [closesAngle, h]
  rfl

theorem closesAngle_greater {t : Token} (h : t.kind = .greater) (a : Nat) (ts : List Token) :
    closesAngle (a + 2) 0 (t :: ts) = closesAngle (a + 1) 0 ts := by
  rw [closesAngle, h]
  rfl

/-- Only the kinds of tokens matter. -/
theorem closesAngle_of_kind {t u : Token} (h : t.kind = u.kind) (a b : Nat) (ts : List Token) :
    closesAngle a b (t :: ts) = closesAngle a b (u :: ts) := by
  rw [closesAngle, closesAngle, h]

/-- The answers behind a token are all that the answer in front of it depends on. -/
theorem closesAngle_congr {k : Kind} {t u : Token} (ht : t.kind = k) (hu : u.kind = k) {a b : Nat}
    {ts us : List Token}
    (h : ∀ a' b', angleStep a b k = some (a' + 1, b') →
      closesAngle (a' + 1) b' ts = closesAngle (a' + 1) b' us) :
    closesAngle a b (t :: ts) = closesAngle a b (u :: us) := by
  rw [closesAngle, closesAngle, ht, hu]
  rcases hs : angleStep a b k with _ | ⟨a', b'⟩
  · rfl
  · cases a' with
    | zero => rfl
    | succ a' => exact h a' b' hs

/-- A shift counts as the closing brackets that it stands for. -/
theorem Spells.closesAngle_eq {ts ws : List Token} (h : Spells ts ws) (a b : Nat) :
    closesAngle (a + 1) b ts = closesAngle (a + 1) b ws := by
  induction h generalizing a b with
  | nil => rfl
  | same hb _ ih =>
    exact closesAngle_congr (Token.bare_eq_iff.1 hb).1 rfl fun a' b' _ => ih a' b'
  | @shift t ts ws hk _ _ ih =>
    have hc : ∀ g, (closer g).kind = .greater := fun _ => rfl
    rw [closesAngle, closesAngle, hk, hc]
    cases b with
    | zero =>
      match a with
      | 0 => rfl
      | 1 => rfl
      | a + 2 => exact ih a 0
    | succ b => exact ih a (b + 1)

/-! ## Words that are passed -/

/-- The search passes the words. -/
def Transparent (ws : List Token) : Prop := ∀ us, ClosesAlike (ws ++ us) us

namespace Transparent

variable {ws vs : List Token}

theorem nil : Transparent [] := fun _ => .refl _

theorem cons {w : Token} (hw : w.kind.IsNeutral) (h : Transparent ws) : Transparent (w :: ws) := by
  intro us a
  rw [List.cons_append, closesAngle_neutral hw]
  exact h us a

theorem append (hw : Transparent ws) (hv : Transparent vs) : Transparent (ws ++ vs) := by
  intro us
  rw [List.append_assoc]
  exact (hw _).trans (hv us)

theorem lead (h : Transparent ws) (g : String) : Transparent (lead g ws) := by
  cases ws with
  | nil => exact .nil
  | cons w ws =>
    intro us a
    rw [← h us a]
    exact closesAngle_of_kind rfl _ _ _

/-- What is opened among the words is closed again. -/
theorem angled (h : Transparent ws) :
    Transparent (Token.sign .less :: (ws ++ [closer ""])) := by
  intro us a
  rw [List.cons_append, List.append_assoc, closesAngle_less rfl, h _ (a + 1)]
  exact closesAngle_greater rfl a us

end Transparent

theorem transparent_joinWords {wss : List (List Token)} (h : ∀ ws ∈ wss, Transparent ws) :
    Transparent (joinWords wss) := by
  induction wss with
  | nil => exact .nil
  | cons ws wss ih =>
    have hws := h ws (by simp)
    cases wss with
    | nil => exact hws
    | cons vs rest =>
      have hrest := ih fun us hu => h us (List.mem_cons_of_mem ws hu)
      exact hws.append (.cons (fun _ _ => rfl) (hrest.lead " "))

theorem Kind.isNeutral_of_isBasicType {k : Kind} (h : k.isBasicType = true) : k.IsNeutral := by
  have hmem : k ∈ basicTypes := List.contains_iff_mem.1 h
  intro a b
  simp only [basicTypes, List.mem_cons, List.not_mem_nil, or_false] at hmem
  rcases hmem with h | h | h | h | h | h | h | h <;> rw [h] <;> rfl

theorem transparent_nameWords {name : String} (h : Nameable name) :
    Transparent (nameWords name) := by
  unfold nameWords
  split
  · exact .cons (fun _ _ => rfl) (.cons (fun _ _ => rfl) .nil)
  · next hne =>
    refine .cons ?_ .nil
    show (nameKind name).IsNeutral
    rcases h with h | h | h
    · have hall : ∀ n ∈ basicTypeNames, n = "unsigned char" ∨
          (nameKind n).isBasicType = true := by decide
      exact Kind.isNeutral_of_isBasicType ((hall name h).resolve_left hne)
    · rw [nameKind_of_isTokenText (isTokenText_identifier.2 h) (.inl rfl)]
      exact fun _ _ => rfl
    · rw [nameKind_of_isTokenText (isInteger_iff.1 h) (.inr rfl)]
      exact fun _ _ => rfl

theorem transparent_pathWords {name : String} (h : Nameable name) (ns : List String) :
    Transparent (pathWords ns name) := by
  induction ns with
  | nil => exact transparent_nameWords h
  | cons n ns ih => exact .cons (fun _ _ => rfl) (.cons (fun _ _ => rfl) ih)

theorem transparent_angledWords {wss : List (List Token)} (h : ∀ ws ∈ wss, Transparent ws) :
    Transparent (angledWords wss) := by
  unfold angledWords
  split
  · exact .nil
  · exact (transparent_joinWords h).angled

/-- The search passes a type use. -/
theorem TypeExpr.WellFormed.transparent {inArgs : Bool} {t : TypeExpr} (h : t.WellFormed inArgs) :
    Transparent t.words := by
  refine h.induct_mk (motive := fun t => Transparent t.words) ?_
  intro ns name as c i b _ hn _ has
  have hangled : Transparent (angledWords (as.map words)) := by
    refine transparent_angledWords ?_
    intro ws hws
    obtain ⟨a, ha, rfl⟩ := List.mem_map.1 hws
    exact has a ha
  have hname := (transparent_pathWords hn ns).append hangled
  have hsign : Transparent (signWords i) := by
    rcases i with _ | _ | _ | _
    · exact .nil
    all_goals exact .cons (fun _ _ => rfl) .nil
  rw [words, wordsList_eq_map]
  refine Transparent.append ?_ hsign
  cases c with
  | false => exact hname
  | true => exact .cons (fun _ _ => rfl) (hname.lead " ")

/-! ## Reading type uses -/

namespace Parse

variable {α : Type} {s : TokenStream} {k : Kind}

theorem alike_advance (h : s.peek.kind.IsNeutral) : ClosesAlike s.ahead s.advance.ahead := by
  obtain ⟨past, ahead, stop⟩ := s
  cases ahead with
  | nil => exact .refl _
  | cons t ts => exact fun a => closesAngle_neutral h a 0 ts

theorem yields_eat_alike (hk : k.IsNeutral) :
    Yields (eat k) s fun _ s' => ClosesAlike s.ahead s'.ahead := by
  refine (yields_eat k).mono ?_
  intro b s' hb
  cases b with
  | true =>
    rw [hb.2]
    exact alike_advance (hb.1 ▸ hk)
  | false =>
    rw [hb.2]
    exact .refl _

theorem yields_typeSegment_alike :
    Yields typeSegment s fun _ s' => ClosesAlike s.ahead s'.ahead := by
  intro n s' hrun
  unfold typeSegment at hrun
  dsimp only at hrun
  split at hrun
  · next hk =>
    cases hrun
    exact alike_advance (by rw [hk]; exact fun _ _ => rfl)
  · split at hrun <;> cases hrun

theorem yields_path_alike : Yields path s fun _ s' => ClosesAlike s.ahead s'.ahead := by
  refine (yields_eat_alike (k := .colonColon) fun _ _ => rfl).discard.bind ?_
  intro _ s1 h1
  obtain ⟨_, h1⟩ := h1
  refine yields_typeSegment_alike.bind ?_
  intro first s2 h2
  refine (yields_manyWhile (P := fun _ => True) (I := fun s' => ClosesAlike s.ahead s'.ahead)
    ?_ (h1.trans h2)).bind ?_
  · intro s3 h3 hmore
    refine .skip_bind ?_
    have hcolons : s3.peek.kind = .colonColon := by
      rw [pathContinues, Bool.and_eq_true, beq_iff_eq] at hmore
      exact hmore.1
    have hpass : ClosesAlike s3.ahead s3.advance.ahead :=
      alike_advance (by rw [hcolons]; exact fun _ _ => rfl)
    exact yields_typeSegment_alike.mono fun _ _ h5 => ⟨trivial, (h3.trans hpass).trans h5⟩
  · intro rest s3 h3
    exact .pure h3.2

theorem yields_basicTypename_alike (hk : s.peek.kind.isBasicType = true) :
    Yields basicTypename s fun _ s' => ClosesAlike s.ahead s'.ahead := by
  refine .advance_bind ?_
  have hpass := alike_advance (Kind.isNeutral_of_isBasicType hk)
  split
  · refine .expect_bind fun hkind => ?_
    refine .pure (hpass.trans (alike_advance ?_))
    rw [hkind]
    exact fun _ _ => rfl
  · exact .pure hpass

/-- The closing bracket closes what was opened in front of it. -/
theorem yields_templateClose_alike (a : Nat) :
    Yields templateClose s
      fun _ s' => closesAngle (a + 2) 0 s.ahead = closesAngle (a + 1) 0 s'.ahead := by
  have hmodify : Yields (modify TokenStream.splitShift : Parse PUnit) s
      fun _ s' => s' = s.splitShift := by
    intro _ s' h
    cases h
    rfl
  refine hmodify.bind ?_
  intro _ s1 h1
  refine (yields_eat .greater).bind ?_
  intro b s2 h2
  cases b with
  | false => exact Yields.bind yields_peek fun _ _ _ => Yields.fail
  | true =>
    obtain ⟨hk, rfl⟩ := h2
    refine .pure ?_
    rw [h1] at hk ⊢
    obtain ⟨past, ahead, stop⟩ := s
    cases ahead with
    | nil => rfl
    | cons t ts =>
      by_cases ht : t.kind = .greaterGreater
      · -- half of the shift is left, which closes one bracket less than all of it
        have hsplit : TokenStream.splitShift ⟨past, t :: ts, stop⟩ =
            ⟨past, TokenStream.firstHalf t :: TokenStream.secondHalf t :: ts, stop⟩ :=
          if_pos ht
        rw [hsplit, TokenStream.advance_cons]
        show closesAngle (a + 2) 0 (t :: ts) =
          closesAngle (a + 1) 0 (TokenStream.secondHalf t :: ts)
        rw [closesAngle, closesAngle, ht]
        cases a <;> rfl
      · have hsplit : TokenStream.splitShift ⟨past, t :: ts, stop⟩ = ⟨past, t :: ts, stop⟩ :=
          if_neg ht
        rw [hsplit] at hk ⊢
        exact closesAngle_greater hk a ts

theorem yields_bracketed_alike {item : Parse α} (whenEmpty : String)
    (hitem : ∀ s, Yields item s fun _ s' => ClosesAlike s.ahead s'.ahead) :
    Yields (bracketed whenEmpty item) s fun _ s' => ClosesAlike s.ahead s'.ahead := by
  refine (yields_expect .less).bind ?_
  intro opening s1 h1
  obtain ⟨rfl, hk, rfl⟩ := h1
  refine Yields.bind (P := fun _ s' => s' = s.advance) (by intro _ _ h; cases h; rfl) ?_
  intro b s2 h2
  split
  · exact Yields.fail
  · refine (yields_commaSeparated_all (P := fun _ => True)
      (I := fun s' => ClosesAlike s.advance.ahead s'.ahead) ?_ ?_ (h2 ▸ .refl _)).bind ?_
    · intro s3 h3
      exact (hitem s3).mono fun _ _ h4 => ⟨trivial, h3.trans h4⟩
    · intro s3 h3 hcomma
      exact h3.trans (alike_advance (by rw [hcomma]; exact fun _ _ => rfl))
    · intro as s3 h3
      have hclose : Yields templateClose s3
          fun _ s' => ∀ a, closesAngle (a + 2) 0 s3.ahead = closesAngle (a + 1) 0 s'.ahead :=
        fun u s' hrun a => yields_templateClose_alike a u s' hrun
      refine hclose.bind ?_
      intro _ s4 h4
      refine .pure ?_
      intro a
      -- one deeper between the brackets than in front of them and behind them
      rw [← h4 a, ← h3.2.2 (a + 1)]
      obtain ⟨past, ahead, stop⟩ := s
      cases ahead with
      | nil => rfl
      | cons t ts => exact closesAngle_less hk a ts

theorem yields_typenameWith_alike {arg : Parse TypeExpr} {inArgs : Bool}
    (harg : ∀ s, Yields arg s fun _ s' => ClosesAlike s.ahead s'.ahead) :
    Yields (typenameWith arg inArgs) s fun _ s' => ClosesAlike s.ahead s'.ahead := by
  refine .peek_bind ?_
  split
  · next hk => exact yields_basicTypename_alike hk
  split
  · next hk =>
    rw [Bool.and_eq_true, beq_iff_eq] at hk
    refine .skip_bind ?_
    exact .pure (alike_advance (by rw [hk.2]; exact fun _ _ => rfl))
  · refine yields_path_alike.bind ?_
    intro p s2 h2
    refine .check_bind fun b => ?_
    dsimp only
    split
    · refine (yields_bracketed_alike _ harg).bind ?_
      intro as s4 h4
      exact .pure (h2.trans h4)
    · exact .pure h2

theorem yields_indirection_alike :
    Yields indirection s fun _ s' => ClosesAlike s.ahead s'.ahead := by
  refine (yields_eat_alike (k := .star) fun _ _ => rfl).bind ?_
  intro b s1 h1
  split
  · exact .pure h1
  refine (yields_eat_alike (k := .atSign) fun _ _ => rfl).bind ?_
  intro b s2 h2
  split
  · exact .pure (h1.trans h2)
  refine (yields_eat_alike (k := .amp) fun _ _ => rfl).bind ?_
  intro b s3 h3
  have hall := (h1.trans h2).trans h3
  split
  · exact .pure hall
  · exact .pure hall

/-- The search passes a type use that is read. -/
theorem yields_typeUse_alike : Yields typeUse s fun _ s' => ClosesAlike s.ahead s'.ahead := by
  have hunfold : ∀ n inArgs s, Yields (unfold typeRule n inArgs) s
      fun _ s' => ClosesAlike s.ahead s'.ahead := by
    intro n
    induction n with
    | zero => intro inArgs s t s' hrun; cases hrun
    | succ n ih =>
      intro inArgs s
      refine (yields_eat_alike (k := .kwConst) fun _ _ => rfl).bind ?_
      intro isConst s1 h1
      refine (yields_typenameWith_alike fun s => ih true s).bind ?_
      intro name s2 h2
      refine yields_indirection_alike.bind ?_
      intro sign s3 h3
      exact .pure ((h1.trans h2).trans h3)
  exact .fix (hunfold _ false s)

end Parse

end TemplateIdl
