import TemplateIdl.Proofs.Grammar.Equation
import TemplateIdl.Proofs.TypeExpr.Derivation

/-!
# Consumes — what is read as a type use has a derivation

* `TokenStream.words`, the words ahead, where a shift is two closing brackets, and `Consumes`, the
  words between two streams;
* `Sound.consumes_advance` and `Sound.words_splitShift`, reading a word and half of a shift;
* `Parse.consumes_typeIn`, the words that are read as a type use have a derivation, which denotes
  the type use.
-/

namespace TemplateIdl

/-! ## The words ahead -/

/-- The words that the grammar sees of a token: of a shift its two halves. -/
def Token.halves (t : Token) : List Token :=
  if t.kind = .greaterGreater then [.sign .greater, .sign .greater] else [.word t.kind t.lexeme]

/-- The words ahead. -/
def TokenStream.words (s : TokenStream) : List Token := s.ahead.flatMap Token.halves

/-- Between two streams stand the words, and the second stream is sound. -/
structure Consumes (s : TokenStream) (ws : List Token) (t : TokenStream) : Prop where
  words : s.words = ws ++ t.words
  sound : Sound t

theorem Consumes.refl {s : TokenStream} (h : Sound s) : Consumes s [] s := ⟨rfl, h⟩

theorem Consumes.trans {s t u : TokenStream} {ws vs : List Token} (h : Consumes s ws t)
    (h' : Consumes t vs u) : Consumes s (ws ++ vs) u :=
  ⟨by rw [h.words, h'.words, List.append_assoc], h'.sound⟩

namespace Sound

variable {s : TokenStream} {k : Kind}

theorem words_peek (h : Sound s) (hk : s.peek.kind ≠ .eof) :
    s.words = s.peek.halves ++ s.advance.words := by
  obtain ⟨past, ahead, stop⟩ := s
  cases ahead with
  | nil => exact absurd h.stop hk
  | cons t ts => rfl

theorem consumes_advance (h : Sound s) (hk : s.peek.kind ≠ .eof)
    (hshift : s.peek.kind ≠ .greaterGreater) :
    Consumes s [.word s.peek.kind s.peek.lexeme] s.advance := by
  refine ⟨?_, h.advance.sound⟩
  rw [h.words_peek hk, Token.halves, if_neg hshift]

/-- A token of a kind with a fixed spelling is spelled so. -/
theorem lexeme_eq (h : Sound s) (hfixed : s.peek.kind.spelling.isSome = true) :
    s.peek.lexeme = s.peek.kind.spelling.getD "" := by
  obtain ⟨text, htext⟩ := Option.isSome_iff_exists.1 hfixed
  have hne : s.peek.kind ≠ .eof := by
    intro he
    rw [he] at htext
    cases htext
  rw [htext]
  exact eq_of_isTokenText (h.proper hne) htext

theorem consumes_sign (h : Sound s) (hk : s.peek.kind = k) (hfixed : k.spelling.isSome = true)
    (hshift : k ≠ .greaterGreater) : Consumes s [.sign k] s.advance := by
  subst hk
  have hne : s.peek.kind ≠ .eof := by
    intro he
    rw [he] at hfixed
    cases hfixed
  rw [Token.sign, ← h.lexeme_eq hfixed]
  exact h.consumes_advance hne hshift

/-- A closing bracket, which may be the first half of a shift. -/
theorem words_splitShift (h : Sound s) (hk : s.splitShift.peek.kind = .greater) :
    s.words = .sign .greater :: s.splitShift.advance.words := by
  by_cases hshift : s.peek.kind = .greaterGreater
  · rw [h.words_peek (by rw [hshift]; decide), Token.halves, if_pos hshift]
    obtain ⟨past, ahead, stop⟩ := s
    cases ahead with
    | nil => exact absurd (h.stop.symm.trans hshift) (by decide)
    | cons t ts =>
      have hsplit : TokenStream.splitShift ⟨past, t :: ts, stop⟩ =
          ⟨past, TokenStream.firstHalf t :: TokenStream.secondHalf t :: ts, stop⟩ := if_pos hshift
      rw [hsplit]
      rfl
  · have hsame : s.splitShift = s := by
      obtain ⟨past, ahead, stop⟩ := s
      cases ahead with
      | nil => rfl
      | cons t ts => exact if_neg hshift
    rw [hsame] at hk ⊢
    exact (h.consumes_sign hk (by decide) (by decide)).words

/-- The next token is the first word, unless that is a closing bracket. -/
theorem peek_kind_iff (h : Sound s) (hk : k ≠ .greater) (hshift : k ≠ .greaterGreater) :
    s.peek.kind = k ↔ headKind s.words = k := by
  by_cases hend : s.peek.kind = .eof
  · rw [TokenStream.words, h.peek_eq_eof_iff.1 hend, hend]
    rfl
  · rw [h.words_peek hend, Token.halves]
    split
    · next he =>
      rw [he]
      exact iff_of_false hshift.symm hk.symm
    · rfl

/-- The first word is a closing bracket exactly if that or a shift is next. -/
theorem headKind_words_eq_greater (h : Sound s) : headKind s.words = .greater ↔
    s.peek.kind = .greater ∨ s.peek.kind = .greaterGreater := by
  by_cases hend : s.peek.kind = .eof
  · rw [TokenStream.words, h.peek_eq_eof_iff.1 hend, hend]
    decide
  · rw [h.words_peek hend, Token.halves]
    split
    · next he => exact iff_of_true rfl (.inr he)
    · next hne => exact ⟨.inl, fun hk => hk.resolve_right hne⟩

theorem peek_splitShift (h : Sound s) (hwords : headKind s.words = .greater) :
    s.splitShift.peek.kind = .greater := by
  have hnext := h.headKind_words_eq_greater.1 hwords
  obtain ⟨past, ahead, stop⟩ := s
  cases ahead with
  | nil => cases hwords
  | cons t ts =>
    unfold TokenStream.splitShift
    dsimp only
    split
    · rfl
    · next hne => exact hnext.resolve_right hne

end Sound

namespace Parse

variable {s : TokenStream} {k : Kind}

/-! ## What is read has a derivation -/

theorem consumes_eat (h : Sound s) (hfixed : k.spelling.isSome = true)
    (hshift : k ≠ .greaterGreater) :
    Yields (eat k) s fun b s' => Consumes s (optionalWord k b) s' := by
  refine (yields_eat k).mono ?_
  intro b s' hread
  cases b with
  | true =>
    obtain ⟨hk, rfl⟩ := hread
    exact h.consumes_sign hk hfixed hshift
  | false =>
    obtain ⟨-, rfl⟩ := hread
    exact .refl h

theorem consumes_typeSegment (h : Sound s) :
    Yields typeSegment s fun n s' => Consumes s [.ident n] s' := by
  intro n s' hrun
  unfold typeSegment at hrun
  dsimp only at hrun
  split at hrun
  · next hk =>
    cases hrun
    have hword := h.consumes_advance (by rw [hk]; decide) (by rw [hk]; decide)
    rwa [hk] at hword
  · split at hrun <;> cases hrun

theorem consumes_segments {as : List String} {t : TokenStream}
    (hr : Repeats pathContinues (do discard advance; typeSegment) s as t) (h : Sound s) :
    Consumes s (segmentWords as) t := by
  induction hr with
  | nil s => exact .refl h
  | @cons s t u a as hm ha _ ih =>
    rw [pathContinues, Bool.and_eq_true, beq_iff_eq] at hm
    have hsign := h.consumes_sign hm.1 (by decide) (by decide)
    have hsegment : Yields (do discard advance; typeSegment) s
        fun n s' => Consumes s.advance [.ident n] s' :=
      .skip_bind (consumes_typeSegment hsign.sound)
    have hhere := hsign.trans (hsegment a t ha)
    exact hhere.trans (ih hhere.sound)

theorem consumes_path (h : Sound s) : Yields path s fun r s' =>
    ∃ p : PathDerivation, r = (p.namespaces, p.name) ∧ Consumes s p.words s' := by
  refine (consumes_eat h (by decide) (by decide)).discard.bind ?_
  intro _ s1 hread
  obtain ⟨isAbsolute, h1⟩ := hread
  refine (consumes_typeSegment h1.sound).bind ?_
  intro first s2 h2
  refine Yields.bind (P := fun rest s' => Consumes s2 (segmentWords rest) s') ?_ ?_
  · intro rest s3 hrun
    exact consumes_segments ((manyWhile_eq_ok h2.sound.stop).1 hrun).1 h2.sound
  · intro rest s3 h3
    refine .pure ⟨⟨isAbsolute, _, _⟩, rfl, ?_⟩
    -- the last segment is the name, and the others are the namespaces
    have hsegments : (first :: rest).dropLast ++ [rest.getLastD first] = first :: rest := by
      apply List.dropLast_append_getLast?
      rw [List.getLast?_cons, List.getLastD_eq_getLast?]
      rfl
    rw [PathDerivation.words_eq hsegments]
    exact h1.trans (h2.trans h3)

theorem consumes_templateClose (h : Sound s) :
    Yields templateClose s fun _ s' => Consumes s [.sign .greater] s' := by
  have hwords : Yields templateClose s fun _ s' => s.words = [.sign .greater] ++ s'.words := by
    have hmodify : Yields (modify TokenStream.splitShift : Parse PUnit) s
        fun _ s' => s' = s.splitShift := by
      rintro _ _ ⟨⟩
      rfl
    refine hmodify.bind ?_
    rintro _ _ rfl
    refine (yields_eat .greater).bind ?_
    intro b s1 hread
    cases b with
    | false => exact yields_peek.bind fun _ _ _ => Yields.fail
    | true =>
      obtain ⟨hk, rfl⟩ := hread
      exact .pure (h.words_splitShift hk)
  exact (hwords.and (yields_templateClose h)).mono fun _ _ hread => ⟨hread.1, hread.2⟩

theorem consumes_basicTypename {inArgs : Bool} (h : Sound s)
    (hk : s.peek.kind.isBasicType = true) :
    Yields basicTypename s fun t s' => ∃ name : NameDerivation inArgs,
      name.denote = t ∧ t.isBasic = name.isBasic ∧ Consumes s name.words s' := by
  have hall : ∀ k ∈ Kind.basicTypes, k = .kwUnsigned ∨ (k ∈ Kind.basicWords ∧
      k.spelling.isSome = true ∧ (Typename.simple (k.spelling.getD "")).isBasic = true) := by decide
  refine .advance_bind ?_
  split
  · next hu =>
    have hunsigned := h.consumes_sign hu (by decide) (by decide)
    refine .expect_bind fun hchar => ?_
    have hread := hunsigned.trans (hunsigned.sound.consumes_sign hchar (by decide) (by decide))
    exact .pure ⟨.unsignedChar, rfl, isBasic_basic (by simp [basicTypeNames]), hread⟩
  · next hu =>
    obtain ⟨hmem, hfixed, hbasic⟩ := (hall _ (List.contains_iff_mem.1 hk)).resolve_left hu
    have hword := h.consumes_sign rfl hfixed (by
      intro he
      rw [he] at hk
      cases hk)
    rw [h.lexeme_eq hfixed]
    exact .pure ⟨.basic s.peek.kind hmem, rfl, hbasic, hword⟩

section Arguments

variable {arg : Parse TypeExpr} (harg : ∀ s, Sound s → Yields arg s fun t s' =>
  ∃ d : TypeDerivation true, d.denote = t ∧ Consumes s d.words s')
include harg

theorem consumes_commaSeparated (h : Sound s) : Yields (commaSeparated arg) s fun ts s' =>
    ∃ first rest, denoteList (first :: rest) = ts ∧
      Consumes s (first.words ++ moreWords rest) s' := by
  refine yields_commaSeparated (I := Sound) (Q := fun s ts s' => ∃ first rest,
    denoteList (first :: rest) = ts ∧ Consumes s (first.words ++ moreWords rest) s') ?_ h
  intro s hs
  refine (harg s hs).mono ?_
  rintro _ s' ⟨d, rfl, hd⟩
  constructor
  · intro _
    exact ⟨d, [], rfl, by rwa [moreWords, List.append_nil]⟩
  · intro hk
    have hcomma := hd.sound.consumes_sign hk (by decide) (by decide)
    refine ⟨hcomma.sound, ?_⟩
    rintro _ s'' ⟨first, rest, rfl, hrest⟩
    exact ⟨d, first :: rest, rfl, hd.trans (hcomma.trans hrest)⟩

theorem consumes_templateArgs (h : Sound s) : Yields (templateArgs arg) s fun ts s' =>
    ∃ ds, denoteList ds = ts ∧ Consumes s (argsWords ds) s' := by
  refine (yields_expect .less).bind ?_
  intro opening _ hread
  obtain ⟨rfl, hk, rfl⟩ := hread
  have hopen := h.consumes_sign hk (by decide) (by decide)
  refine Yields.bind (P := fun _ s' => s' = s.advance) (by rintro _ _ ⟨⟩; rfl) ?_
  rintro b _ rfl
  split
  · exact Yields.fail
  · refine (consumes_commaSeparated harg hopen.sound).bind ?_
    rintro _ s1 ⟨first, rest, rfl, h1⟩
    refine (consumes_templateClose h1.sound).bind ?_
    intro _ s2 h2
    refine .pure ⟨first :: rest, rfl, ?_⟩
    rw [argsWords, ← List.append_assoc]
    exact hopen.trans (h1.trans h2)

theorem consumes_typenameWith {inArgs : Bool} (h : Sound s) :
    Yields (typenameWith arg inArgs) s fun t s' => ∃ name : NameDerivation inArgs,
      name.denote = t ∧ t.isBasic = name.isBasic ∧ Consumes s name.words s' := by
  refine .peek_bind ?_
  split
  · next hk => exact consumes_basicTypename h hk
  split
  · next hk =>
    simp only [Bool.and_eq_true, beq_iff_eq] at hk
    obtain ⟨rfl, hk⟩ := hk
    have hword := h.consumes_advance (by rw [hk]; decide) (by rw [hk]; decide)
    have hproper : isTokenText _ s.peek.lexeme = true := h.proper (by rw [hk]; decide)
    rw [hk] at hword hproper
    refine .skip_bind (.pure ⟨.integer s.peek.lexeme, rfl, ?_, hword⟩)
    exact Typename.isBasic_eq_false (not_basic_of_isInteger (isInteger_iff.2 hproper))
  · refine ((yields_path h).and (consumes_path h)).bind ?_
    rintro _ s1 ⟨⟨hns, hname, -⟩, p, rfl, h1⟩
    have hbasic : ∀ args, (⟨p.namespaces, p.name, args⟩ : Typename).isBasic = false :=
      fun args => Typename.isBasic_eq_false (not_basic_of_isIdentifier hname)
    refine .check_bind fun b => ?_
    dsimp only
    split
    · refine (consumes_templateArgs harg h1.sound).bind ?_
      rintro _ s2 ⟨ds, rfl, h2⟩
      rw [Typename.ofPath_eq hns]
      exact .pure ⟨.path p ds, rfl, hbasic _, h1.trans h2⟩
    · refine .pure ⟨.path p [], (Typename.ofPath_eq hns _ _).symm, ?_, ?_⟩
      · rw [Typename.ofPath_eq hns]
        exact hbasic []
      · rwa [NameDerivation.words, argsWords, List.append_nil]

end Arguments

theorem consumes_indirection (h : Sound s) :
    Yields indirection s fun sign s' => Consumes s (signWords sign) s' := by
  refine (consumes_eat (k := .star) h (by decide) (by decide)).bind ?_
  intro b s1 h1
  cases b with
  | true => exact .pure h1
  | false =>
    refine (consumes_eat (k := .atSign) h1.sound (by decide) (by decide)).bind ?_
    intro b s2 h2
    cases b with
    | true => exact .pure (h1.trans h2)
    | false =>
      refine (consumes_eat (k := .amp) h2.sound (by decide) (by decide)).bind ?_
      intro b s3 h3
      have hall := h1.trans (h2.trans h3)
      cases b with
      | true => exact .pure hall
      | false => exact .pure hall

theorem consumes_unfold_typeRule (n : Nat) (inArgs : Bool) (h : Sound s) :
    Yields (unfold typeRule n inArgs) s fun t s' =>
      ∃ d : TypeDerivation inArgs, d.denote = t ∧ Consumes s d.words s' := by
  induction n generalizing inArgs s with
  | zero => rintro _ _ ⟨⟩
  | succ n ih =>
    refine (consumes_eat h (by decide) (by decide)).bind ?_
    intro isConst s1 h1
    refine (consumes_typenameWith (fun s hs => ih true hs) h1.sound).bind ?_
    rintro _ s2 ⟨name, rfl, hbasic, h2⟩
    refine (consumes_indirection h2.sound).bind ?_
    intro sign s3 h3
    refine .pure ⟨.mk isConst name sign, ?_, h1.trans (h2.trans h3)⟩
    rw [TypeDerivation.denote, TypeExpr.ofTypename, hbasic]

/-- What is read as a type use has a derivation that denotes it. -/
theorem consumes_typeIn (inArgs : Bool) (h : Sound s) : Yields (typeIn inArgs) s fun t s' =>
    ∃ d : TypeDerivation inArgs, d.denote = t ∧ Consumes s d.words s' :=
  .fix (consumes_unfold_typeRule _ inArgs h)

end Parse

end TemplateIdl
