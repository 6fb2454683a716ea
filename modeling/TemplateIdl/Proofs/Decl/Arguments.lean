import TemplateIdl.Proofs.Decl.WellFormed

/-!
# Arguments that are read are well formed

* `Argument.transparent`, the search for closing brackets passes an argument;
* `ArgumentsFit.congr`, defaults that fit in front of some words fit in front of others;
* `Parse.yields_arguments`, what is read as arguments in parentheses.
-/

namespace TemplateIdl

open DefaultValue

/-! ## Arguments in front of other words -/

theorem Ends.commaWords {us : List Token} (h : Ends us) (wss : List (List Token)) :
    Ends (commaWords us wss) :=
  commaWords_of (fun _ => rfl) h wss

theorem ClosesAlike.cons {w : Token} (hw : w.kind.IsNeutral) {us vs : List Token}
    (h : ClosesAlike us vs) : ClosesAlike (w :: us) (w :: vs) := by
  intro a
  rw [closesAngle_neutral hw, closesAngle_neutral hw]
  exact h a

theorem ClosesAlike.lead {ws us vs : List Token} (h : ClosesAlike (ws ++ us) vs) (hne : ws ≠ [])
    (g : String) : ClosesAlike (lead g ws ++ us) vs := by
  obtain ⟨w, ws, rfl⟩ := List.exists_cons_of_ne_nil hne
  intro a
  rw [← h a]
  exact closesAngle_of_kind rfl _ _ _

theorem DefaultFits.congr {d : String} {us us' : List Token} (h : DefaultFits d us)
    (halike : ClosesAlike us us') (hend : Ends us') : DefaultFits d us' :=
  capture_congr h rfl halike hend

theorem closesAlike_optionWords {d? : Option String} {us us' : List Token}
    (hf : ∀ d ∈ d?, DefaultFits d us) (halike : ClosesAlike us us') :
    ClosesAlike (optionWords d? ++ us) (optionWords d? ++ us') := by
  cases d? with
  | none => exact halike
  | some d =>
    have hpass : ClosesAlike (defaultWords d ++ us) (lead " " (defaultWords d) ++ us) :=
      closesAlike_capture (hf d rfl) (map_kind_lead " " _).symm (.refl us)
    have hpass' : ClosesAlike (defaultWords d ++ us) (lead " " (defaultWords d) ++ us') :=
      closesAlike_capture (hf d rfl) (map_kind_lead " " _).symm halike
    exact .cons (fun _ _ => rfl) (hpass.symm.trans hpass')

/-- The search for closing brackets goes on behind an argument. -/
theorem Argument.closesAlike {a : Argument} (ha : a.WellFormed) {us us' : List Token}
    (hf : ∀ d ∈ a.default?, DefaultFits d us) (halike : ClosesAlike us us') :
    ClosesAlike (a.words ++ us) (a.words ++ us') := by
  have hrest : ClosesAlike ((Token.ident a.name).behind " " :: (optionWords a.default? ++ us))
      ((Token.ident a.name).behind " " :: (optionWords a.default? ++ us')) :=
    .cons (fun _ _ => rfl) (closesAlike_optionWords hf halike)
  have htype := ha.type.transparent
  rw [words, List.append_assoc, List.append_assoc, List.cons_append, List.cons_append]
  exact (htype _).trans (hrest.trans (htype _).symm)

theorem Argument.words_ne_nil (a : Argument) : a.words ≠ [] := by
  rw [words]
  exact (a.type.flush_words.append _).ne_nil

/-- Defaults that fit in front of `us` fit in front of words in which the search for closing
brackets ends alike. -/
theorem ArgumentsFit.congr {args : List Argument} {us us' : List Token}
    (hargs : ∀ a ∈ args, a.WellFormed) (h : ArgumentsFit us args) (halike : ClosesAlike us us')
    (hend : Ends us') :
    ArgumentsFit us' args ∧
      ClosesAlike (commaWords us (args.map Argument.words))
        (commaWords us' (args.map Argument.words)) := by
  induction args with
  | nil => exact ⟨trivial, halike⟩
  | cons a args ih =>
    obtain ⟨hfit, hrest⟩ := ih (fun b hb => hargs b (List.mem_cons_of_mem a hb)) h.2
    have hends := Ends.commaWords hend (args.map Argument.words)
    refine ⟨⟨fun d hd => (h.1 d hd).congr hrest hends, hfit⟩, ?_⟩
    have hpass := Argument.closesAlike (hargs a (by simp)) h.1 hrest
    have hne := a.words_ne_nil
    exact .cons (fun _ _ => rfl) ((hpass.symm.lead hne " ").symm.lead hne " ")

/-- Behind arguments in parentheses nothing is looked at. -/
theorem WellFormedArguments.fits {args : List Argument} (h : WellFormedArguments args)
    (us : List Token) : ArgumentsFit (.sign .rightParen :: us) args := by
  have hend : Ends (Token.sign .rightParen :: us) := rfl
  refine (ArgumentsFit.congr h.each h.fit ?_ hend).1
  intro a
  rw [closesAngle_stop (.inl rfl), closesAngle_stop (.inl rfl)]

namespace Parse

variable {s : TokenStream}

/-! ## Single tokens -/

theorem yields_expect_sound (k : Kind) (h : Sound s) :
    Yields (expect k) s fun _ s' => Sound s' := by
  refine (yields_expect k).mono ?_
  intro t s' ht
  rw [ht.2.2]
  exact h.advance.sound

theorem yields_skip_sound (k : Kind) (h : Sound s) :
    Yields (discard (expect k)) s fun _ s' => Sound s' := by
  refine (yields_expect_sound k h).discard.mono ?_
  intro _ s' hs
  obtain ⟨_, hs⟩ := hs
  exact hs

theorem yields_name (h : Sound s) :
    Yields expectIdentifier s fun n s' => isIdentifier n = true ∧ Sound s' := by
  refine yields_expectIdentifier.mono ?_
  intro n s' hn
  obtain ⟨hk, rfl, rfl⟩ := hn
  have hp : isTokenText s.peek.kind s.peek.lexeme = true := h.proper (by rw [hk]; decide)
  rw [hk, isTokenText_identifier] at hp
  exact ⟨hp, h.advance.sound⟩

/-- Where a declaration or its arguments end, the search for closing brackets ends. -/
theorem alike_of_stop (h : Sound s) {k : Kind} (hk : s.peek.kind = k)
    (hstop : k = .rightParen ∨ k = .semicolon) : ClosesAlike s.ahead [.sign k] := by
  obtain ⟨past, ahead, stop⟩ := s
  have hpeek : ahead ≠ [] := by
    intro he
    subst he
    have heof : stop.kind = .eof := h.stop
    rw [← hk, TokenStream.peek_nil, heof] at hstop
    rcases hstop with hstop | hstop <;> cases hstop
  obtain ⟨t, ts, rfl⟩ := List.exists_cons_of_ne_nil hpeek
  intro a
  rw [closesAngle_stop (by rwa [show t.kind = k from hk]), closesAngle_stop (by simpa using hstop)]

/-! ## Arguments -/

theorem yields_argument (h : Sound s) :
    Yields argument s fun a s' => a.WellFormed ∧ Sound s' ∧
      ∀ us, Ends us → ClosesAlike s'.ahead us →
        (∀ d ∈ a.default?, DefaultFits d us) ∧ ClosesAlike s.ahead (a.words ++ us) := by
  refine ((yields_typeIn false h).and yields_typeUse_alike).bind ?_
  intro type s1 h1
  obtain ⟨⟨htype, hs1⟩, halike1⟩ := h1
  have hname : Yields expectIdentifier s1
      fun n s' => (isIdentifier n = true ∧ Sound s') ∧ ClosesAlike s1.ahead s'.ahead := by
    refine (yields_name hs1).and (yields_expectIdentifier.mono ?_)
    intro n s' hn
    rw [hn.2.2]
    exact alike_advance (by rw [hn.1]; exact fun _ _ => rfl)
  refine hname.bind ?_
  intro name s2 h2
  obtain ⟨⟨hn, hs2⟩, halike2⟩ := h2
  refine (yields_optionalDefault hs2).bind ?_
  intro d? s3 h3
  obtain ⟨hd, hs3, hfits⟩ := h3
  refine .pure ⟨⟨htype, hn, hd⟩, hs3, ?_⟩
  intro us hend halike
  obtain ⟨hfit, halike3⟩ := hfits us hend halike
  refine ⟨hfit, ?_⟩
  have hwords : ClosesAlike (optionWords d? ++ us)
      (type.words ++ (Token.ident name).behind " " :: (optionWords d? ++ us)) := by
    refine .symm ((htype.transparent _).trans ?_)
    intro a
    exact closesAngle_neutral (fun _ _ => rfl) _ _ _
  rw [Argument.words, List.append_assoc, List.cons_append]
  exact halike1.trans (halike2.trans (halike3.trans hwords))

/-- Arguments in front of words in which the search for closing brackets ends as in the text. -/
theorem yields_argumentList (h : Sound s) :
    Yields (commaSeparated argument) s fun args s' => (∀ a ∈ args, a.WellFormed) ∧ Sound s' ∧
      ∀ us, Ends us → ClosesAlike s'.ahead us → ArgumentsFit us args ∧
        ClosesAlike s.ahead (commaWords us (args.map Argument.words)) := by
  refine yields_commaSeparated (I := Sound) (Q := fun s args s' =>
    (∀ a ∈ args, a.WellFormed) ∧ Sound s' ∧ ∀ us, Ends us → ClosesAlike s'.ahead us →
      ArgumentsFit us args ∧ ClosesAlike s.ahead (commaWords us (args.map Argument.words))) ?_ h
  intro s hs
  refine (yields_argument hs).mono ?_
  intro a s' ha
  obtain ⟨hwf, hs', hfits⟩ := ha
  -- the comma in front of the words does not matter
  have hlead : ∀ us, ClosesAlike s.ahead (a.words ++ us) →
      ClosesAlike s.ahead (Token.sign .comma :: (lead " " a.words ++ us)) := by
    intro us hus
    refine (hus.symm.lead a.words_ne_nil " ").symm.trans ?_
    intro n
    exact (closesAngle_neutral (fun _ _ => rfl) _ _ _).symm
  refine ⟨fun _ => ⟨by simpa using hwf, hs', ?_⟩, fun hcomma => ⟨hs'.advance.sound, ?_⟩⟩
  · intro us hend halike
    obtain ⟨hfit, hpass⟩ := hfits us hend halike
    exact ⟨⟨hfit, trivial⟩, hlead us hpass⟩
  · intro args s'' hargs
    obtain ⟨hwfs, hs'', hrest⟩ := hargs
    refine ⟨by simpa using ⟨hwf, hwfs⟩, hs'', ?_⟩
    intro us hend halike
    obtain ⟨hfit, hpass⟩ := hrest us hend halike
    have hcommas : ClosesAlike s'.ahead s'.advance.ahead :=
      alike_advance (by rw [hcomma]; exact fun _ _ => rfl)
    obtain ⟨hfit', hpass'⟩ := hfits _ (Ends.commaWords hend _) (hcommas.trans hpass)
    exact ⟨⟨hfit', hfit⟩, hlead _ hpass'⟩

/-- Arguments in parentheses. -/
theorem yields_arguments (h : Sound s) :
    Yields arguments s fun args s' => WellFormedArguments args ∧ Sound s' := by
  refine .peek_bind ?_
  split
  · refine .skip_bind ?_
    have hs := h.advance.sound
    refine (yields_eat_sound .rightParen hs).bind ?_
    intro b s3 h3
    split
    · exact .pure ⟨⟨by simp, trivial⟩, h3⟩
    · refine (yields_argumentList h3).bind ?_
      intro args s4 h4
      obtain ⟨hwf, hs4, hfits⟩ := h4
      refine .expect_bind fun hk => ?_
      have halike := alike_of_stop hs4 hk (.inl rfl)
      exact .pure ⟨⟨hwf, (hfits [.sign .rightParen] rfl halike).1⟩, hs4.advance.sound⟩
  · exact Yields.fail

end Parse

end TemplateIdl
