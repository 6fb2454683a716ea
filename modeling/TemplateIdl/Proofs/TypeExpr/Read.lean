import TemplateIdl.Proofs.TypeExpr.Image

/-!
# Reading type uses — the words of a type use are read as the type use

* `Parse.runs_bracketed`, things in angle brackets;
* `Parse.runs_typenameWith`, names without qualifiers;
* `Parse.runs_typeIn`, type uses.
-/

namespace TemplateIdl

@[simp] theorem headKind_lead (g : String) (ws : List Token) :
    headKind (lead g ws) = headKind ws := by
  cases ws <;> rfl

theorem headKind_append {ws : List Token} (h : ws ≠ []) (vs : List Token) :
    headKind (ws ++ vs) = headKind ws := by
  cases ws with
  | nil => exact absurd rfl h
  | cons w ws => rfl

theorem headKind_lead_append {ws : List Token} (h : ws ≠ []) (g : String) (vs : List Token) :
    headKind (lead g ws ++ vs) = headKind ws := by
  rw [headKind_append, headKind_lead]
  cases ws with
  | nil => exact absurd rfl h
  | cons w ws => simp

theorem headKind_joinWords {ws : List Token} (h : ws ≠ []) (wss : List (List Token))
    (us : List Token) : headKind (joinWords (ws :: wss) ++ us) = headKind ws := by
  cases wss with
  | nil => exact headKind_append h us
  | cons vs rest => rw [joinWords, List.append_assoc, headKind_append h]

/-- What can stand behind a type use. -/
def EndsType (us : List Token) : Prop :=
  headKind us ∉ [.star, .atSign, .amp, .less, .colonColon]

/-- Behind the name in a type use stands no bracket and no `::`, whether there is a sign or not. -/
theorem EndsType.behindSign {us : List Token} (h : EndsType us) (sign : Option Indirection) :
    headKind (signWords sign ++ us) ≠ .less ∧ headKind (signWords sign ++ us) ≠ .colonColon := by
  simp only [EndsType, List.mem_cons, List.not_mem_nil, or_false, not_or] at h
  rcases sign with _ | _ | _ | _
  · exact h.2.2.2
  · simp [signWords]
  · simp [signWords]
  · simp [signWords]

namespace Parse

variable {α β : Type} {s : TokenStream} {us : List Token}

/-! ## Brackets -/

theorem runs_eat_of_peek {k : Kind} (hk : s.peek.kind = k) :
    Runs (eat k) s fun b s' => b = true ∧ s' = s.advance :=
  ⟨true, s.advance, by rw [eat, if_pos hk], rfl, rfl⟩

theorem runs_templateClose {g : String} (h : At s (closer g :: us)) :
    Runs templateClose s fun _ s' => At s' us := by
  have hmodify : Runs (modify TokenStream.splitShift : Parse PUnit) s
      fun _ s' => s' = s.splitShift :=
    ⟨_, _, rfl, rfl⟩
  refine hmodify.bind ?_
  rintro _ _ rfl
  obtain ⟨past, ahead, stop⟩ := s
  obtain ⟨hspell, hstop⟩ := h
  generalize hw : closer g = w at hspell
  cases hspell with
  | @same t _ ts _ hb hr =>
    have hk : t.kind = .greater := by
      rw [(Token.bare_eq_iff.1 hb).1, ← hw]
      rfl
    have hsplit : TokenStream.splitShift ⟨past, t :: ts, stop⟩ = ⟨past, t :: ts, stop⟩ := by
      exact if_neg (by rw [hk]; decide)
    rw [hsplit]
    refine (runs_eat_of_peek (s := ⟨past, t :: ts, stop⟩) hk).bind ?_
    intro _ _ hread
    obtain ⟨rfl, rfl⟩ := hread
    exact .pure ⟨hr, hstop⟩
  | @shift t ts ws hk hl hr =>
    have hsplit : TokenStream.splitShift ⟨past, t :: ts, stop⟩ =
        ⟨past, TokenStream.firstHalf t :: TokenStream.secondHalf t :: ts, stop⟩ := by
      exact if_pos hk
    rw [hsplit]
    refine (runs_eat_of_peek (k := .greater) rfl).bind ?_
    intro _ _ hread
    obtain ⟨rfl, rfl⟩ := hread
    exact .pure ⟨.same rfl hr, hstop⟩

theorem runs_bracketed {item : Parse β} {f : α → List Token} {R : α → β → Prop}
    {Q : List Token → Prop} {xs : List α} (whenEmpty : String)
    (hitem : ∀ x ∈ xs, ∀ g s vs, At s (lead g (f x) ++ vs) → Q vs →
      Runs item s fun b s' => R x b ∧ At s' vs)
    (hflush : ∀ x ∈ xs, Flush (f x))
    (hhead : ∀ x ∈ xs, headKind (f x) ≠ .greater ∧ headKind (f x) ≠ .greaterGreater)
    (hQ : ∀ vs, Q (Token.sign .comma :: vs)) (hus : Q (closer "" :: us)) (hxs : xs ≠ []) {w : Token}
    (hw : w.kind = .less) (h : At s (w :: (joinWords (xs.map f) ++ closer "" :: us))) :
    Runs (bracketed whenEmpty item) s fun bs s' => List.Forall₂ R xs bs ∧ At s' us := by
  have hjoin : Flush (joinWords (xs.map f)) := by
    refine flush_joinWords ?_ (by simpa using hxs)
    intro ws hws
    obtain ⟨x, hx, rfl⟩ := List.mem_map.1 hws
    exact hflush x hx
  have hfirst : headKind (joinWords (xs.map f) ++ closer "" :: us) ≠ .greater ∧
      headKind (joinWords (xs.map f) ++ closer "" :: us) ≠ .greaterGreater := by
    obtain ⟨x, rest, rfl⟩ := List.exists_cons_of_ne_nil hxs
    rw [List.map_cons, headKind_joinWords (hflush x (by simp)).ne_nil]
    exact hhead x (by simp)
  refine (runs_expect h hw (by decide)).bind ?_
  intro opening s1 hread
  obtain ⟨-, h1⟩ := hread
  -- the brackets are not empty: no item begins with a closing one
  have hat : Runs atTemplateClose s1 fun b s' => b = false ∧ s' = s1 := by
    refine ⟨_, _, rfl, ?_, rfl⟩
    rcases h1.peek_kind with hk | ⟨hk, -⟩
    · simp [hk, hfirst]
    · exact absurd hk hfirst.1
  refine hat.bind ?_
  intro _ _ hread
  obtain ⟨rfl, rfl⟩ := hread
  rw [← hjoin.lead_empty] at h1
  refine (runs_commaSeparated
    (fun y ys hy g s hs => hitem y (hy.subset (by simp)) g s _ hs (commaWords_of hQ hus _))
    (fun x hx => (hflush x hx).ne_nil) (by simp [closer]) hxs h1).bind ?_
  intro bs s2 hread
  obtain ⟨hbs, h2⟩ := hread
  refine (runs_templateClose h2).bind ?_
  intro _ s3 h3
  exact .pure ⟨hbs, h3⟩

/-! ## Names -/

theorem nameWords_identifier {name : String} (h : isIdentifier name = true) :
    nameWords name = [.ident name] := by
  have hne : name ≠ "unsigned char" := by
    rintro rfl
    exact absurd h (by decide)
  rw [nameWords, if_neg hne, nameKind_of_isTokenText (isTokenText_identifier.2 h) (.inl rfl)]
  rfl

/-- A path of identifiers is a first one with `::` in front of all others. -/
theorem pathWords_eq {name : String} (h : isIdentifier name = true) (ns : List String) :
    ∃ first rest, ns ++ [name] = first :: rest ∧
      pathWords ns name = .ident first :: rest.flatMap fun n => [.sign .colonColon, .ident n] := by
  induction ns with
  | nil => exact ⟨name, [], rfl, nameWords_identifier h⟩
  | cons n ns ih =>
    obtain ⟨first, rest, he, hw⟩ := ih
    refine ⟨n, first :: rest, by rw [List.cons_append, he], ?_⟩
    rw [pathWords, hw]
    rfl

theorem runs_typeSegment {w : Token} (h : At s (w :: us)) (hk : w.kind = .identifier) :
    Runs typeSegment s fun n s' => n = w.lexeme ∧ At s' us := by
  obtain ⟨hb, hs⟩ := h.peek (by rw [hk]; decide)
  have hp : s.peek.kind = .identifier := hk ▸ (Token.bare_eq_iff.1 hb).1
  refine ⟨s.peek.lexeme, s.advance, ?_, (Token.bare_eq_iff.1 hb).2.1, hs⟩
  rw [typeSegment]
  exact if_pos hp

theorem runs_path {ns : List String} {name g : String} (hn : isIdentifier name = true)
    (h : At s (lead g (pathWords ns name) ++ us)) (hus : headKind us ≠ .colonColon) :
    Runs path s fun p s' => p = (ns, name) ∧ At s' us := by
  obtain ⟨first, rest, he, hw⟩ := pathWords_eq hn ns
  rw [hw, lead_cons, List.cons_append] at h
  refine (runs_eat_no (k := .colonColon) h (by simp [Token.ident, Token.word]) (by decide)).drop ?_
  intro _ s1 hread
  obtain ⟨-, h1⟩ := hread
  refine (runs_typeSegment h1 rfl).bind ?_
  intro m s2 hread
  obtain ⟨hm, h2⟩ := hread
  obtain ⟨g', h2⟩ := h2.exists_gap
  refine (runs_manyWhile (R := Eq) (Q := fun _ => True) ?_ ?_ (by simp) (by simp) trivial ?_ h2).bind ?_
  · intro n _ g s vs hs
    obtain ⟨hb, hs'⟩ := hs.peek (by simp)
    have hk : s.peek.kind = .colonColon := (Token.bare_eq_iff.1 hb).1
    have hk' : s.advance.peek.kind = .identifier := hs'.peek_kind_eq (by simp [Token.ident, Token.word])
    simp [pathContinues, s.nth_one, hk, hk']
  · intro n _ g s vs hs _
    refine (runs_advance hs (by simp)).discard.bind ?_
    intro _ s' hread
    obtain ⟨_, -, hs'⟩ := hread
    exact (runs_typeSegment hs' rfl).mono fun m s'' hm => ⟨hm.1.symm, hm.2⟩
  · intro s hs
    simp [pathContinues, hs.peek_kind_ne hus (by decide)]
  · intro rest' s3 hread
    obtain ⟨hrest, h3⟩ := hread
    rw [List.forall₂_eq_eq_eq] at hrest
    subst hrest
    refine .pure ⟨?_, h3⟩
    -- the last segment is the name, and the others are the namespaces
    have hlast : rest.getLastD m = name := by
      have hend := congrArg List.getLast? he
      rw [List.getLast?_concat, List.getLast?_cons, Option.some.injEq] at hend
      rw [List.getLastD_eq_getLast?, hm, hend]
      rfl
    have hinit : (m :: rest).dropLast = ns := by
      rw [show m = first from hm, ← he, List.dropLast_concat]
    rw [hlast, hinit]

theorem headKind_pathWords {name : String} (hn : isIdentifier name = true) (ns : List String) :
    headKind (pathWords ns name) = .identifier := by
  obtain ⟨first, rest, -, hw⟩ := pathWords_eq hn ns
  rw [hw]
  rfl

/-- The name of a built-in type, of which the first word alone is a keyword. -/
theorem headKind_basic {name : String} (h : name ∈ basicTypeNames) :
    (headKind (nameWords name)).isBasicType = true := by
  have hall : ∀ n ∈ basicTypeNames, (headKind (nameWords n)).isBasicType = true := by decide
  exact hall name h

theorem runs_basicTypename {name g : String} (hn : name ∈ basicTypeNames)
    (h : At s (lead g (nameWords name) ++ us)) :
    Runs basicTypename s fun t s' => t = .simple name ∧ At s' us := by
  by_cases hu : name = "unsigned char"
  · rw [nameWords, if_pos hu, lead_cons, List.cons_append] at h
    refine (runs_advance h (by simp)).bind ?_
    intro t s1 hread
    obtain ⟨hb, h1⟩ := hread
    have hk : t.kind = .kwUnsigned := (Token.bare_eq_iff.1 hb).1
    rw [if_pos hk]
    refine (runs_expect (k := .kwChar) h1 rfl (by decide)).drop ?_
    intro _ s2 hread
    obtain ⟨-, h2⟩ := hread
    exact .pure ⟨by rw [hu], h2⟩
  · have hall : ∀ n ∈ basicTypeNames, n = "unsigned char" ∨
        (nameKind n ≠ .kwUnsigned ∧ nameKind n ≠ .greater) := by decide
    obtain ⟨hk, hg⟩ := (hall name hn).resolve_left hu
    rw [nameWords, if_neg hu, lead_cons, List.cons_append] at h
    refine (runs_advance h hg).bind ?_
    intro t s1 hread
    obtain ⟨hb, h1⟩ := hread
    obtain ⟨hkind, hlexeme, -⟩ := Token.bare_eq_iff.1 hb
    rw [if_neg (by rw [hkind]; exact hk)]
    exact .pure ⟨by rw [hlexeme]; rfl, h1⟩

theorem nameWords_integer {name : String} (h : IsInteger name) :
    nameWords name = [.word .intLiteral name] := by
  have ht := isInteger_iff.1 h
  have hne : name ≠ "unsigned char" := by
    rintro rfl
    exact absurd ht (by decide)
  rw [nameWords, if_neg hne, nameKind_of_isTokenText ht (.inr rfl)]

/-- The kinds of token that a well-formed type use begins with. -/
theorem headKind_words {inArgs : Bool} {t : TypeExpr} (h : t.WellFormed inArgs) :
    headKind t.words = .kwConst ∨ (headKind t.words).isBasicType = true ∨
      headKind t.words = .identifier ∨ (inArgs = true ∧ headKind t.words = .intLiteral) := by
  -- a type use begins with `const` or with its path
  have hmk : ∀ (ns : List String) (n : String) (as : List TypeExpr) (c : Bool)
      (i : Option Indirection) (b : Bool),
      headKind (TypeExpr.mk ns n as c i b).words = .kwConst ∨
        headKind (TypeExpr.mk ns n as c i b).words = headKind (pathWords ns n) := by
    intro ns n as c i b
    rw [TypeExpr.words]
    cases c with
    | true => exact .inl rfl
    | false =>
      refine .inr ?_
      have hflush := flush_pathWords ns n
      rw [flagWords_false, headKind_append (hflush.append _).ne_nil,
        headKind_append hflush.ne_nil]
  cases h with
  | @basic _ c n i hn =>
    rcases hmk [] n [] c i true with h | h
    · exact .inl h
    · exact .inr (.inl (by rw [h]; exact headKind_basic hn))
  | @named _ c ns n as i hns hn hargs =>
    rcases hmk ns n as c i false with h | h
    · exact .inl h
    · exact .inr (.inr (.inl (by rw [h]; exact headKind_pathWords hn ns)))
  | @integer c n i hn =>
    rcases hmk [] n [] c i false with h | h
    · exact .inl h
    · refine .inr (.inr (.inr ⟨rfl, ?_⟩))
      rw [h, pathWords, nameWords_integer hn]
      rfl

/-- Template arguments behind a name, if there are any. -/
theorem runs_args {arg : Parse TypeExpr} {ns : List String} {name : String} {args : List TypeExpr}
    (hns : ∀ n ∈ ns, isIdentifier n = true) (hargs : ∀ a ∈ args, a.WellFormed true)
    (harg : ∀ a ∈ args, ∀ g s vs, At s (lead g a.words ++ vs) → EndsType vs →
      Runs arg s fun t s' => a = t ∧ At s' vs)
    (h : At s (angledWords (args.map TypeExpr.words) ++ us)) (hus : headKind us ≠ .less) :
    Runs (do
      let args ← if ← check .less then templateArgs arg else pure []
      pure (Typename.ofPath ns name args)) s fun t s' => t = ⟨ns, name, args⟩ ∧ At s' us := by
  by_cases hne : args = []
  · subst hne
    refine (runs_check_no (k := .less) h hus (by decide)).seq ?_
    intro s1 h1
    exact .pure ⟨Typename.ofPath_eq hns name [], h1⟩
  · rw [angledWords, if_neg (by simpa using hne), List.cons_append, List.append_assoc] at h
    refine (runs_check (k := .less) h rfl (by decide)).seq ?_
    intro s1 h1
    refine (runs_bracketed (R := Eq) (Q := EndsType) _ harg (fun a _ => a.flush_words) ?_ ?_ ?_ hne
      rfl h1).bind ?_
    · intro a ha
      rcases headKind_words (hargs a ha) with hk | hk | hk | ⟨-, hk⟩
      · simp [hk]
      · constructor <;> (intro he; rw [he] at hk; cases hk)
      · simp [hk]
      · simp [hk]
    · intro vs
      simp [EndsType]
    · simp [EndsType, closer]
    · intro as s2 hread
      obtain ⟨has, h2⟩ := hread
      rw [List.forall₂_eq_eq_eq] at has
      subst has
      exact .pure ⟨Typename.ofPath_eq hns name _, h2⟩

theorem runs_typenameWith {arg : Parse TypeExpr} {inArgs isConst isBasic : Bool} {ns : List String}
    {name g : String} {args : List TypeExpr} {sign : Option Indirection}
    (ht : (TypeExpr.mk ns name args isConst sign isBasic).WellFormed inArgs)
    (harg : ∀ a ∈ args, ∀ g s vs, At s (lead g a.words ++ vs) → EndsType vs →
      Runs arg s fun t s' => a = t ∧ At s' vs)
    (h : At s (lead g (pathWords ns name ++ angledWords (args.map TypeExpr.words)) ++ us))
    (hus : headKind us ≠ .less ∧ headKind us ≠ .colonColon) :
    Runs (typenameWith arg inArgs) s fun t s' => t = ⟨ns, name, args⟩ ∧ At s' us := by
  -- built-in types and integers have neither namespaces nor arguments
  have hplain : ∀ n, pathWords [] n ++ angledWords (([] : List TypeExpr).map TypeExpr.words) =
      nameWords n := by
    simp [pathWords, angledWords]
  cases ht with
  | basic hn =>
    rw [hplain] at h
    have hk := headKind_basic hn
    rw [← headKind_lead_append (flush_nameWords name).ne_nil g us] at hk
    refine (runs_peek_kind h ?_).bind ?_
    · intro he
      rw [he] at hk
      cases hk
    · intro t s1 hread
      obtain ⟨ht, h1⟩ := hread
      rw [if_pos (by rw [ht]; exact hk)]
      exact runs_basicTypename hn h1
  | named hns hn hargs =>
    have hflush := flush_pathWords ns name
    rw [lead_append hflush.ne_nil, List.append_assoc] at h
    have hk : headKind (lead g (pathWords ns name) ++
        (angledWords (args.map TypeExpr.words) ++ us)) = .identifier := by
      rw [headKind_lead_append hflush.ne_nil, headKind_pathWords hn]
    refine (runs_peek_kind h (by rw [hk]; decide)).bind ?_
    intro t s1 hread
    obtain ⟨ht, h1⟩ := hread
    rw [hk] at ht
    rw [if_neg (by rw [ht]; decide), if_neg (by simp [ht])]
    refine (runs_path hn h1 ?_).bind ?_
    · cases args with
      | nil => exact hus.2
      | cons a args => simp [angledWords]
    · intro _ s2 hread
      obtain ⟨rfl, h2⟩ := hread
      exact runs_args hns hargs harg h2 hus.1
  | integer hn =>
    rw [hplain, nameWords_integer hn, lead_cons, List.cons_append] at h
    refine (runs_peek h (by simp [Token.word])).bind ?_
    intro t s1 hread
    obtain ⟨hb, h1⟩ := hread
    obtain ⟨hk, hl, -⟩ := Token.bare_eq_iff.1 hb
    have hk' : t.kind = .intLiteral := hk
    rw [if_neg (by rw [hk']; decide), if_pos (by rw [hk']; rfl)]
    refine (runs_advance h1 (by simp [Token.word])).drop ?_
    intro _ s2 hread
    obtain ⟨-, h2⟩ := hread
    exact .pure ⟨by rw [hl]; rfl, h2⟩

/-! ## Types -/

theorem runs_indirection {sign : Option Indirection} (h : At s (signWords sign ++ us))
    (hus : EndsType us) : Runs indirection s fun i s' => i = sign ∧ At s' us := by
  simp only [EndsType, List.mem_cons, List.not_mem_nil, or_false, not_or] at hus
  obtain ⟨hstar, hat, hamp, -, -⟩ := hus
  rcases sign with _ | _ | _ | _
  · refine (runs_eat_no h hstar (by decide)).seq ?_
    intro s1 h1
    refine (runs_eat_no h1 hat (by decide)).seq ?_
    intro s2 h2
    refine (runs_eat_no h2 hamp (by decide)).seq ?_
    intro s3 h3
    exact .pure ⟨rfl, h3⟩
  · refine (runs_eat (k := .star) h rfl (by decide)).seq ?_
    intro s1 h1
    exact .pure ⟨rfl, h1⟩
  · refine (runs_eat_no (k := .star) h (by simp [signWords]) (by decide)).seq ?_
    intro s1 h1
    refine (runs_eat (k := .atSign) h1 rfl (by decide)).seq ?_
    intro s2 h2
    exact .pure ⟨rfl, h2⟩
  · refine (runs_eat_no (k := .star) h (by simp [signWords]) (by decide)).seq ?_
    intro s1 h1
    refine (runs_eat_no (k := .atSign) h1 (by simp [signWords]) (by decide)).seq ?_
    intro s2 h2
    refine (runs_eat (k := .amp) h2 rfl (by decide)).seq ?_
    intro s3 h3
    exact .pure ⟨rfl, h3⟩

theorem ofTypename_eq {inArgs isConst isBasic : Bool} {ns : List String} {name : String}
    {args : List TypeExpr} {sign : Option Indirection}
    (ht : (TypeExpr.mk ns name args isConst sign isBasic).WellFormed inArgs) :
    TypeExpr.ofTypename ⟨ns, name, args⟩ isConst sign =
      .mk ns name args isConst sign isBasic := by
  have hofParts : ∀ b, TypeExpr.ofParts ⟨ns, name, args⟩ isConst sign b =
      .mk ns name args isConst sign b := fun _ => rfl
  rw [TypeExpr.ofTypename, hofParts]
  congr 1
  cases ht with
  | basic hn => exact isBasic_basic hn
  | named _ hn => exact Typename.isBasic_eq_false (not_basic_of_isIdentifier hn)
  | integer hn => exact Typename.isBasic_eq_false (not_basic_of_isInteger hn)

theorem headKind_ne_const {inArgs isConst isBasic : Bool} {ns : List String} {name : String}
    {args : List TypeExpr} {sign : Option Indirection}
    (ht : (TypeExpr.mk ns name args isConst sign isBasic).WellFormed inArgs) :
    headKind (pathWords ns name) ≠ .kwConst := by
  cases ht with
  | basic hn =>
    intro he
    have hk := headKind_basic hn
    rw [show headKind (nameWords name) = .kwConst from he] at hk
    cases hk
  | named _ hn => simp [headKind_pathWords hn]
  | integer hn => simp [pathWords, nameWords_integer hn, Token.word]

/-- A keyword in front of words, if so told. -/
theorem runs_eat_flag {k : Kind} {flag : Bool} {ws : List Token} {g : String} (hne : ws ≠ [])
    (hws : headKind ws ≠ k) (hk : k ≠ .greater ∧ k ≠ .greaterGreater)
    (h : At s (lead g (flagWords k flag ws) ++ us)) :
    ∃ g', Runs (eat k) s fun b s' => b = flag ∧ At s' (lead g' ws ++ us) := by
  cases flag with
  | true => exact ⟨" ", runs_eat h rfl hk.1⟩
  | false =>
    refine ⟨g, runs_eat_no h ?_ hk.2⟩
    rw [headKind_lead_append hne]
    exact hws

/-- One type use, whose arguments are read by `self`. -/
theorem runs_typeRule {self : Bool → Parse TypeExpr} {inArgs : Bool} {t : TypeExpr} {g : String}
    (ht : t.WellFormed inArgs)
    (hself : ∀ a ∈ t.args, ∀ g s vs, At s (lead g a.words ++ vs) → EndsType vs →
      Runs (self true) s fun t s' => a = t ∧ At s' vs)
    (h : At s (lead g t.words ++ us)) (hus : EndsType us) :
    Runs (typeRule self inArgs) s fun t' s' => t = t' ∧ At s' us := by
  obtain ⟨ns, name, args, isConst, sign, isBasic⟩ := t
  have hpath := (flush_pathWords ns name).append (angledWords (args.map TypeExpr.words))
  rw [TypeExpr.words, TypeExpr.wordsList_eq_map,
    lead_append (flush_flagWords hpath .kwConst isConst).ne_nil, List.append_assoc] at h
  have hhead : headKind (pathWords ns name ++ angledWords (args.map TypeExpr.words)) ≠ .kwConst := by
    rw [headKind_append (flush_pathWords ns name).ne_nil]
    exact headKind_ne_const ht
  obtain ⟨g', hconst⟩ := runs_eat_flag hpath.ne_nil hhead (by decide) h
  refine hconst.seq ?_
  intro s1 h1
  refine (runs_typenameWith ht hself h1 (hus.behindSign sign)).seq ?_
  intro s2 h2
  refine (runs_indirection h2 hus).seq ?_
  intro s3 h3
  exact .pure ⟨(ofTypename_eq ht).symm, h3⟩

theorem totalWeight_joinWords {wss : List (List Token)} {ws : List Token} (h : ws ∈ wss) :
    Token.totalWeight ws ≤ Token.totalWeight (joinWords wss) := by
  induction wss with
  | nil => exact absurd h List.not_mem_nil
  | cons us wss ih =>
    cases wss with
    | nil =>
      obtain rfl := List.mem_singleton.1 h
      exact Nat.le_refl _
    | cons vs rest =>
      rw [joinWords, Token.totalWeight_append, Token.totalWeight, Token.totalWeight_lead]
      rcases List.mem_cons.1 h with rfl | h
      · omega
      · have := ih h
        omega

/-- A type use weighs more than each of its arguments. -/
theorem totalWeight_arg {t a : TypeExpr} (h : a ∈ t.args) :
    Token.totalWeight a.words < Token.totalWeight t.words := by
  obtain ⟨ns, name, args, isConst, sign, isBasic⟩ := t
  have hmem : a.words ∈ args.map TypeExpr.words := List.mem_map.2 ⟨a, h, rfl⟩
  have hne : args ≠ [] := List.ne_nil_of_mem h
  have hle := totalWeight_joinWords hmem
  -- besides its arguments, a templated type use has at least the brackets
  have hconst : ∀ ws, Token.totalWeight ws ≤ Token.totalWeight (flagWords .kwConst isConst ws) := by
    intro ws
    cases isConst with
    | false => exact Nat.le_refl _
    | true =>
      rw [flagWords_true, Token.totalWeight, Token.totalWeight_lead]
      omega
  have hinner := hconst (pathWords ns name ++ angledWords (args.map TypeExpr.words))
  have hangled : Token.totalWeight (angledWords (args.map TypeExpr.words)) =
      (Token.sign .less).weight + (Token.totalWeight (joinWords (args.map TypeExpr.words)) +
        Token.totalWeight [closer ""]) := by
    rw [angledWords, if_neg (by simpa using hne), Token.totalWeight, Token.totalWeight_append]
  have hpos := Token.weight_pos (Token.sign .less)
  rw [Token.totalWeight_append, hangled] at hinner
  rw [TypeExpr.words, TypeExpr.wordsList_eq_map, Token.totalWeight_append]
  omega

theorem runs_unfold_typeRule {n : Nat} {inArgs : Bool} {t : TypeExpr} {g : String}
    (ht : t.WellFormed inArgs) (hn : Token.totalWeight t.words ≤ n)
    (h : At s (lead g t.words ++ us)) (hus : EndsType us) :
    Runs (unfold typeRule n inArgs) s fun t' s' => t = t' ∧ At s' us := by
  induction n generalizing inArgs t g s us with
  | zero =>
    have := Token.totalWeight_pos t.flush_words.ne_nil
    omega
  | succ n ih =>
    refine runs_typeRule ht ?_ h hus
    intro a ha g s vs hs hvs
    have hless := totalWeight_arg ha
    exact ih (ht.args a ha) (by omega) hs hvs

/-- The words of a well-formed type use are read as the type use. -/
theorem runs_typeIn {inArgs : Bool} {t : TypeExpr} {g : String} (ht : t.WellFormed inArgs)
    (h : At s (lead g t.words ++ us)) (hus : EndsType us) :
    Runs (typeIn inArgs) s fun t' s' => t = t' ∧ At s' us := by
  refine .fix (runs_unfold_typeRule ht ?_ h hus)
  rw [h.weight_eq, Token.totalWeight_append, Token.totalWeight_lead]
  omega

/-- The words of a name without qualifiers are read as the name. -/
theorem runs_typename {t : Typename} {g : String} (ht : t.WellFormed false)
    (h : At s (lead g (pathWords t.namespaces t.name ++ angledWords (t.args.map TypeExpr.words)) ++
      us)) (hus : headKind us ≠ .less ∧ headKind us ≠ .colonColon) :
    Runs typename s fun t' s' => t' = t ∧ At s' us := by
  refine runs_typenameWith (ht false none) ?_ h hus
  intro a ha g s vs hs hvs
  refine runs_typeIn ?_ hs hvs
  have hwf := ht false none
  obtain ⟨ns, name, args⟩ := t
  rw [TypeExpr.ofTypename] at hwf
  generalize Typename.isBasic ⟨ns, name, args⟩ = b at hwf
  cases hwf with
  | basic => exact absurd ha List.not_mem_nil
  | named _ _ hargs => exact hargs a ha

theorem runs_typeUse {t : TypeExpr} {g : String} (ht : t.WellFormed false)
    (h : At s (lead g t.words ++ us)) (hus : EndsType us) :
    Runs typeUse s fun t' s' => t' = t ∧ At s' us :=
  (runs_typeIn ht h hus).mono fun _ _ ha => ⟨ha.1.symm, ha.2⟩

end Parse

end TemplateIdl
