import TemplateIdl.Proofs.TypeExpr.Consumes

/-!
# Accepts — what has a derivation is read as a type use

* `Faces`, a stream in front of words;
* `Parse.accepts_typeIn`, words that have a derivation are read as a type use, unless something
  follows that can continue it;
* `TypeExpr.parse_iff_derivation`, a text is read as a type use exactly if its words have a
  derivation, and that is the only one and denotes the type use.
-/

namespace TemplateIdl

/-! ## Streams in front of words -/

/-- The stream is sound, and the words stand ahead. -/
structure Faces (s : TokenStream) (us : List Token) : Prop where
  sound : Sound s
  words : s.words = us

theorem Consumes.faces {s t : TokenStream} {ws us : List Token} (h : Consumes s ws t)
    (hs : Faces s (ws ++ us)) : Faces t us :=
  ⟨h.sound, List.append_cancel_left (h.words.symm.trans hs.words)⟩

namespace Faces

variable {s : TokenStream} {us : List Token} {k : Kind}

theorem peek_kind_iff (h : Faces s us) (hk : k ≠ .greater) (hshift : k ≠ .greaterGreater) :
    s.peek.kind = k ↔ headKind us = k := by
  rw [h.sound.peek_kind_iff hk hshift, h.words]

/-- Words that are not part of a shift are read one by one. -/
theorem advance {w : Token} (h : Faces s (w :: us))
    (hw : w.kind ∉ [.greater, .greaterGreater, .eof]) :
    s.peek.kind = w.kind ∧ Faces s.advance us := by
  simp only [List.mem_cons, List.not_mem_nil, or_false, not_or] at hw
  have hpeek : s.peek.kind = w.kind := (h.peek_kind_iff hw.1 hw.2.1).2 rfl
  have hread := h.sound.consumes_advance (hpeek ▸ hw.2.2) (hpeek ▸ hw.2.1)
  exact ⟨hpeek, hread.sound, (List.cons.inj (hread.words.symm.trans h.words)).2⟩

end Faces

namespace Parse

variable {s : TokenStream} {k : Kind} {us : List Token}

/-! ## Single words -/

theorem accepts_eat_sign (h : Faces s (.sign k :: us))
    (hk : k ∉ [.greater, .greaterGreater, .eof]) :
    Runs (eat k) s fun b s' => b = true ∧ Faces s' us := by
  obtain ⟨hpeek, hrest⟩ := h.advance hk
  exact ⟨true, s.advance, if_pos hpeek, rfl, hrest⟩

theorem accepts_eat_no (h : Faces s us) (hus : headKind us ≠ k) (hk : k ≠ .greater)
    (hshift : k ≠ .greaterGreater) : Runs (eat k) s fun b s' => b = false ∧ Faces s' us := by
  have hpeek : s.peek.kind ≠ k := fun he => hus ((h.peek_kind_iff hk hshift).1 he)
  exact ⟨false, s, if_neg hpeek, rfl, h⟩

theorem accepts_eat {b : Bool} (h : Faces s (optionalWord k b ++ us)) (hus : headKind us ≠ k)
    (hk : k ∉ [.greater, .greaterGreater, .eof]) :
    Runs (eat k) s fun b' s' => b' = b ∧ Faces s' us := by
  simp only [List.mem_cons, List.not_mem_nil, or_false, not_or] at hk
  cases b with
  | true => exact accepts_eat_sign h (by simp [hk])
  | false => exact accepts_eat_no h hus hk.1 hk.2.1

theorem accepts_check (h : Faces s us) (hus : headKind us = k) (hk : k ≠ .greater)
    (hshift : k ≠ .greaterGreater) : Runs (check k) s fun b s' => b = true ∧ Faces s' us :=
  ⟨_, s, rfl, beq_iff_eq.2 ((h.peek_kind_iff hk hshift).2 hus), h⟩

theorem accepts_check_no (h : Faces s us) (hus : headKind us ≠ k) (hk : k ≠ .greater)
    (hshift : k ≠ .greaterGreater) : Runs (check k) s fun b s' => b = false ∧ Faces s' us :=
  ⟨_, s, rfl, beq_eq_false_iff_ne.2 fun he => hus ((h.peek_kind_iff hk hshift).1 he), h⟩

theorem accepts_expect (h : Faces s (.sign k :: us)) (hk : k ∉ [.greater, .greaterGreater, .eof]) :
    Runs (expect k) s fun _ s' => Faces s' us := by
  obtain ⟨hpeek, hrest⟩ := h.advance hk
  exact ⟨s.peek, s.advance, if_pos hpeek, hrest⟩

theorem accepts_typeSegment {n : String} (h : Faces s (.ident n :: us)) :
    Runs typeSegment s fun _ s' => Faces s' us := by
  obtain ⟨hpeek, hrest⟩ := h.advance (by simp [Token.ident, Token.word])
  exact ⟨s.peek.lexeme, s.advance, if_pos hpeek, hrest⟩

theorem accepts_segments {ns : List String} (h : Faces s (segmentWords ns ++ us)) : ∃ as t,
    Repeats pathContinues (do discard advance; typeSegment) s as t ∧ Faces t us := by
  induction ns generalizing s with
  | nil => exact ⟨[], s, .nil s, h⟩
  | cons n ns ih =>
    have hcolons : Faces s (.sign .colonColon :: .ident n :: (segmentWords ns ++ us)) := h
    obtain ⟨hpeek, h1⟩ := hcolons.advance (by decide)
    obtain ⟨a, s2, ha, h2⟩ := accepts_typeSegment h1
    obtain ⟨as, t, has, ht⟩ := ih h2
    refine ⟨a :: as, t, .cons ?_ ?_ has, ht⟩
    · have hsecond : s.advance.peek.kind = .identifier :=
        (h1.peek_kind_iff (by decide) (by decide)).2 rfl
      rw [Token.kind_sign] at hpeek
      simp [pathContinues, s.nth_one, hpeek, hsecond]
    · exact ha

theorem accepts_path {p : PathDerivation} (h : Faces s (p.words ++ us))
    (hus : headKind us ≠ .colonColon) : Runs path s fun _ s' => Faces s' us := by
  obtain ⟨first, rest, hp⟩ := p.exists_segments
  rw [PathDerivation.words_eq hp, List.append_assoc] at h
  refine (accepts_eat h (by simp [Token.ident, Token.word]) (by decide)).drop ?_
  rintro _ s1 ⟨-, h1⟩
  refine (accepts_typeSegment h1).bind ?_
  intro _ s2 h2
  obtain ⟨as, s3, has, h3⟩ := accepts_segments h2
  have hstop : pathContinues s3 = false := by
    have hpeek : s3.peek.kind ≠ .colonColon :=
      fun he => hus ((h3.peek_kind_iff (by decide) (by decide)).1 he)
    simp [pathContinues, hpeek]
  refine Runs.bind (P := fun _ s' => s' = s3)
    ⟨as, s3, (manyWhile_eq_ok h2.sound.stop).2 ⟨has, hstop⟩, rfl⟩ ?_
  rintro _ _ rfl
  exact .pure h3

theorem accepts_templateClose (h : Faces s (.sign .greater :: us)) :
    Runs templateClose s fun _ s' => Faces s' us := by
  have hruns : Runs templateClose s fun _ _ => True := by
    have hmodify : Runs (modify TokenStream.splitShift : Parse PUnit) s
        fun _ s' => s' = s.splitShift := ⟨_, _, rfl, rfl⟩
    refine hmodify.bind ?_
    rintro _ _ rfl
    refine (runs_eat_of_peek (h.sound.peek_splitShift ?_)).bind ?_
    · rw [h.words]
      rfl
    · rintro _ _ ⟨rfl, -⟩
      exact .pure trivial
  exact (hruns.and (consumes_templateClose h.sound)).mono fun _ _ hread => hread.2.faces h

theorem accepts_basicTypename (hpeek : s.peek.kind = k) (hk : k ≠ .kwUnsigned)
    (h : Faces s.advance us) : Runs basicTypename s fun _ s' => Faces s' us := by
  have hadvance : Runs Parse.advance s fun t s' => t = s.peek ∧ Faces s' us := ⟨_, _, rfl, rfl, h⟩
  refine hadvance.seq ?_
  intro s1 h1
  rw [if_neg (hpeek ▸ hk)]
  exact .pure h1

theorem accepts_unsignedChar (hpeek : s.peek.kind = .kwUnsigned)
    (h : Faces s.advance (.sign .kwChar :: us)) :
    Runs basicTypename s fun _ s' => Faces s' us := by
  have hadvance : Runs Parse.advance s fun t s' => t = s.peek ∧ Faces s' (.sign .kwChar :: us) :=
    ⟨_, _, rfl, rfl, h⟩
  refine hadvance.seq ?_
  intro s1 h1
  rw [if_pos hpeek]
  refine (accepts_expect h1 (by decide)).drop ?_
  intro _ s2 h2
  exact .pure h2

section Arguments

variable {arg : Parse TypeExpr} [Moving arg] {ds : List (TypeDerivation true)}
  (harg : ∀ d ∈ ds, ∀ s us, Faces s (d.words ++ us) → EndsType us →
    Runs arg s fun _ s' => Faces s' us)
include harg

theorem accepts_commaSeparated {first : TypeDerivation true} {rest : List (TypeDerivation true)}
    (hds : first :: rest ⊆ ds)
    (h : Faces s (first.words ++ (moreWords rest ++ .sign .greater :: us))) :
    Runs (commaSeparated arg) s fun _ s' => Faces s' (.sign .greater :: us) := by
  have hfirst : first ∈ ds := hds List.mem_cons_self
  induction rest generalizing first s with
  | nil =>
    refine .of_eq (commaSeparated_step h.sound.stop) ?_
    refine (harg first hfirst _ _ h (endsType_moreWords [] us)).bind ?_
    intro _ s1 h1
    refine (accepts_eat_no h1 (by simp [moreWords]) (by decide) (by decide)).seq ?_
    intro s2 h2
    exact .pure h2
  | cons d rest ih =>
    refine .of_eq (commaSeparated_step h.sound.stop) ?_
    refine (harg first hfirst _ _ h (endsType_moreWords (d :: rest) us)).bind ?_
    intro _ s1 h1
    rw [moreWords, List.cons_append, List.append_assoc] at h1
    refine (accepts_eat_sign h1 (by decide)).seq ?_
    intro s2 h2
    have hrest : d :: rest ⊆ ds := List.Subset.trans (List.subset_cons_self first _) hds
    refine (ih hrest h2 (hrest List.mem_cons_self)).bind ?_
    intro _ s3 h3
    exact .pure h3

theorem accepts_templateArgs (hds : ds ≠ []) (h : Faces s (argsWords ds ++ us)) :
    Runs (templateArgs arg) s fun _ s' => Faces s' us := by
  obtain ⟨first, rest, rfl⟩ := List.exists_cons_of_ne_nil hds
  simp only [argsWords, List.cons_append, List.append_assoc, List.nil_append] at h
  refine (accepts_expect h (by decide)).bind ?_
  intro opening s1 h1
  -- the brackets are not empty: no type use begins with a closing one
  have hat : Runs atTemplateClose s1 fun b s' => b = false ∧ s' = s1 := by
    have hne := mt h1.sound.headKind_words_eq_greater.2 (h1.words ▸ first.headKind_words_ne _)
    rw [not_or] at hne
    exact ⟨_, _, rfl, by simp [hne], rfl⟩
  refine hat.bind ?_
  rintro _ _ ⟨rfl, rfl⟩
  refine (accepts_commaSeparated harg (List.Subset.refl _) h1).bind ?_
  intro ts s2 h2
  refine (accepts_templateClose h2).bind ?_
  intro _ s3 h3
  exact .pure h3

/-- A path, and template arguments if there are any. -/
theorem accepts_pathName {p : PathDerivation} (h : Faces s (p.words ++ (argsWords ds ++ us)))
    (hus : headKind us ≠ .less ∧ headKind us ≠ .colonColon) :
    Runs (do
      let (namespaces, name) ← path
      let args ← if ← check .less then templateArgs arg else pure []
      pure (Typename.ofPath namespaces name args)) s fun _ s' => Faces s' us := by
  refine (accepts_path h (headKind_argsWords hus.2 ds)).bind ?_
  intro r s1 h1
  cases ds with
  | nil =>
    refine (accepts_check_no h1 hus.1 (by decide) (by decide)).seq ?_
    intro s2 h2
    exact .pure h2
  | cons first rest =>
    refine (accepts_check (k := .less) h1 rfl (by decide) (by decide)).seq ?_
    intro s2 h2
    refine (accepts_templateArgs harg (by simp) h2).bind ?_
    intro ts s3 h3
    exact .pure h3

theorem accepts_typenameWith {inArgs : Bool} {name : NameDerivation inArgs} (hds : name.args = ds)
    (h : Faces s (name.words ++ us)) (hus : headKind us ≠ .less ∧ headKind us ≠ .colonColon) :
    Runs (typenameWith arg inArgs) s fun _ s' => Faces s' us := by
  refine .peek_bind ?_
  cases name with
  | basic k hk =>
    have hall : ∀ k ∈ Kind.basicWords, k.isBasicType = true ∧ k ≠ .kwUnsigned ∧
        k ∉ [.greater, .greaterGreater, .eof] := by decide
    obtain ⟨hbasic, hunsigned, hkind⟩ := hall k hk
    obtain ⟨hpeek, hrest⟩ := h.advance hkind
    rw [if_pos (by rw [hpeek]; exact hbasic)]
    exact accepts_basicTypename hpeek hunsigned hrest
  | unsignedChar =>
    obtain ⟨hpeek, hrest⟩ := h.advance (by decide)
    rw [if_pos (by rw [hpeek]; decide)]
    exact accepts_unsignedChar hpeek hrest
  | integer lexeme =>
    obtain ⟨hpeek, hrest⟩ := h.advance (by simp [Token.word])
    have hkind : s.peek.kind = .intLiteral := hpeek
    rw [if_neg (by rw [hkind]; decide), if_pos (by rw [hkind]; decide)]
    have hadvance : Runs Parse.advance s fun _ s' => Faces s' us := ⟨_, _, rfl, hrest⟩
    refine hadvance.drop ?_
    intro _ s1 h1
    exact .pure h1
  | path p args =>
    obtain rfl : args = ds := hds
    rw [NameDerivation.words, List.append_assoc] at h
    -- a path begins neither as a built-in type nor as an integer
    have hkind : s.peek.kind = .colonColon ∨ s.peek.kind = .identifier := by
      have hfirst := p.headKind_words_append (argsWords args ++ us)
      rcases p.firstKind_cases with hk | hk
      · exact .inl ((h.peek_kind_iff (by decide) (by decide)).2 (hfirst.trans hk))
      · exact .inr ((h.peek_kind_iff (by decide) (by decide)).2 (hfirst.trans hk))
    rw [if_neg (by rcases hkind with hk | hk <;> rw [hk] <;> decide),
      if_neg (by rcases hkind with hk | hk <;> simp [hk])]
    exact accepts_pathName harg h hus

end Arguments

theorem accepts_indirection {sign : Option Indirection} (h : Faces s (signWords sign ++ us))
    (hus : EndsType us) : Runs indirection s fun _ s' => Faces s' us := by
  simp only [EndsType, List.mem_cons, List.not_mem_nil, or_false, not_or] at hus
  rcases sign with _ | _ | _ | _
  · refine (accepts_eat_no h hus.1 (by decide) (by decide)).seq ?_
    intro s1 h1
    refine (accepts_eat_no h1 hus.2.1 (by decide) (by decide)).seq ?_
    intro s2 h2
    refine (accepts_eat_no h2 hus.2.2.1 (by decide) (by decide)).seq ?_
    intro s3 h3
    exact .pure h3
  · refine (accepts_eat_sign h (by decide)).seq ?_
    intro s1 h1
    exact .pure h1
  · refine (accepts_eat_no h (by simp [signWords]) (by decide) (by decide)).seq ?_
    intro s1 h1
    refine (accepts_eat_sign h1 (by decide)).seq ?_
    intro s2 h2
    exact .pure h2
  · refine (accepts_eat_no h (by simp [signWords]) (by decide) (by decide)).seq ?_
    intro s1 h1
    refine (accepts_eat_no h1 (by simp [signWords]) (by decide) (by decide)).seq ?_
    intro s2 h2
    refine (accepts_eat_sign h2 (by decide)).seq ?_
    intro s3 h3
    exact .pure h3

theorem accepts_typeIn {inArgs : Bool} (d : TypeDerivation inArgs) (h : Faces s (d.words ++ us))
    (hus : EndsType us) : Runs (typeIn inArgs) s fun _ s' => Faces s' us := by
  induction d using TypeDerivation.induct generalizing s us with
  | mk isConst name sign ih =>
    rw [TypeDerivation.words, List.append_assoc, List.append_assoc] at h
    refine .of_eq (typeIn_step _ h.sound.stop) ?_
    refine (accepts_eat h ?_ (by decide)).seq ?_
    · rw [name.headKind_words_append]
      exact name.firstKind_ne (by decide)
    intro s1 h1
    refine (accepts_typenameWith (fun d hd s us => ih d hd) rfl h1 (hus.behindSign sign)).bind ?_
    intro _ s2 h2
    refine (accepts_indirection h2 hus).bind ?_
    intro _ s3 h3
    exact .pure h3

end Parse

/-! ## Whole texts -/

namespace TypeExpr

/-- The words of a text without faults. -/
def sourceWords (source : String) : List Token :=
  (Lexed.ofSource source).tokens.flatMap Token.halves

theorem words_ofSource {source : String} (h : (Lexed.ofSource source).errors = []) :
    (TokenStream.ofLexed (Lexed.ofSource source)).words = sourceWords source := by
  rw [TokenStream.words, ahead_ofSource h, sourceWords]

/-- What is read from a text as a type use has a derivation from the words of the text. -/
theorem exists_derivation {source : String} {t : TypeExpr} (h : parse source = .ok t) :
    ∃ d : TypeDerivation false, d.denote = t ∧ d.words = sourceWords source := by
  obtain ⟨he, s', hrun, hend⟩ := parse_eq_ok.1 h
  obtain ⟨d, hd, hread⟩ := Parse.consumes_typeIn false (clean_ofSource he).sound t s' hrun
  refine ⟨d, hd, ?_⟩
  rw [← words_ofSource he, hread.words, TokenStream.words, hread.sound.peek_eq_eof_iff.1 hend,
    List.flatMap_nil, List.append_nil]

/-- A text whose words have a derivation is read as a type use. -/
theorem exists_parse_eq_ok {source : String} (h : (Lexed.ofSource source).errors = [])
    {d : TypeDerivation false} (hd : d.words = sourceWords source) :
    ∃ t, parse source = .ok t := by
  have hfaces : Faces (.ofLexed (Lexed.ofSource source)) (d.words ++ []) := by
    refine ⟨(clean_ofSource h).sound, ?_⟩
    rw [words_ofSource h, hd, List.append_nil]
  obtain ⟨t, s', hrun, hend⟩ := Parse.accepts_typeIn d hfaces (by simp [EndsType])
  exact ⟨t, parse_eq_ok.2 ⟨h, s', hrun, (hend.peek_kind_iff (by decide) (by decide)).2 rfl⟩⟩

/-- A text without faults is read as a type use exactly if its words have a derivation. There is
one derivation at most, and it denotes the type use that is read. -/
theorem parse_iff_derivation {source : String} (h : (Lexed.ofSource source).errors = []) :
    ((∃ t, parse source = .ok t) ↔
      ∃ d : TypeDerivation false, d.words = sourceWords source) ∧
    (∀ d e : TypeDerivation false, d.words = sourceWords source →
      e.words = sourceWords source → d = e) ∧
    ∀ d : TypeDerivation false, d.words = sourceWords source → parse source = .ok d.denote := by
  have hunique : ∀ d e : TypeDerivation false, d.words = sourceWords source →
      e.words = sourceWords source → d = e :=
    fun d e hd he => TypeDerivation.words_injective (hd.trans he.symm)
  refine ⟨⟨?_, ?_⟩, hunique, ?_⟩
  · rintro ⟨t, ht⟩
    obtain ⟨d, -, hd⟩ := exists_derivation ht
    exact ⟨d, hd⟩
  · rintro ⟨d, hd⟩
    exact exists_parse_eq_ok h hd
  · intro d hd
    -- something is read, and it can only be what the derivation denotes
    obtain ⟨t, ht⟩ := exists_parse_eq_ok h hd
    obtain ⟨e, rfl, he⟩ := exists_derivation ht
    rw [ht, hunique d e hd he]

/-- A type use in which a shift closes two brackets, and a path that begins with `::`. -/
def grids : String := "const ::std::map<unsigned char, Grid<4>>&"

/-- Its derivation. -/
def gridsDerivation : TypeDerivation false :=
  .mk true (.path ⟨true, ["std"], "map"⟩ [.mk false .unsignedChar none,
    .mk false (.path ⟨false, [], "Grid"⟩ [.mk false (.integer "4") none]) none]) (some .ref)

/-- The derivation tells what is read. An integer alone has none. -/
theorem grids_derivation : (Lexed.ofSource grids).errors = [] ∧
    gridsDerivation.words = sourceWords grids ∧ parse grids = .ok gridsDerivation.denote ∧
    ¬ ∃ d : TypeDerivation false, d.words = sourceWords "4" := by
  have hnone : (Lexed.ofSource "4").errors = [] := by decide +kernel
  have hclean : (Lexed.ofSource grids).errors = [] := by decide +kernel
  have hwords : gridsDerivation.words = sourceWords grids := by decide +kernel
  refine ⟨hclean, hwords, (parse_iff_derivation hclean).2.2 gridsDerivation hwords, ?_⟩
  rw [← (parse_iff_derivation hnone).1]
  rintro ⟨t, ht⟩
  have hfails : (parse "4").toOption.isNone = true := by decide +kernel
  rw [ht] at hfails
  cases hfails

end TypeExpr

end TemplateIdl
