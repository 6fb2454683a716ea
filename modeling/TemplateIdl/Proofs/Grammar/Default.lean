import TemplateIdl.Proofs.Grammar.Capture

/-!
# Defaults — a default is read again from its own text

* `defaultWords`, the tokens of the text of a default, and `IsDefault`, the texts that are
  defaults;
* `Parse.yields_optionalDefault`, what is read as a default is one, also in front of other tokens;
* `Parse.runs_optionalDefault`, the words of a default are read as the default.
-/

namespace TemplateIdl

open DefaultValue

/-- The tokens of the text of a default. -/
def defaultWords (d : String) : List Token := (Lexed.ofSource d).tokens.map Token.bare

/-- A text that consists of tokens, without blanks or comments at its ends. -/
structure IsDefault (d : String) : Prop where
  clean : (Lexed.ofSource d).errors = []
  flush : Flush (defaultWords d)
  chars : Token.chars (defaultWords d) = d.toList

/-- In front of the words `us` the default is read up to its end and no further. -/
def DefaultFits (d : String) (us : List Token) : Prop :=
  capture [] none (defaultWords d ++ us) = .ok (defaultWords d)

/-! ## The text of tokens -/

theorem toList_textOf (ts : List Token) : (textOf ts).toList = Token.chars (lead "" ts) := by
  cases ts with
  | nil => rfl
  | cons t ts =>
    have hjoin : (String.join (ts.map fun u => u.gap ++ u.lexeme)).toList = Token.chars ts := by
      induction ts with
      | nil => rfl
      | cons u us ih =>
        rw [List.map_cons, String.join_cons, String.toList_append, ih, String.toList_append,
          Token.chars_cons, List.append_assoc]
    rw [textOf, String.toList_append, hjoin]
    simp

theorem Spells.chars_eq {ts ws : List Token} (h : Spells ts ws) :
    Token.chars ts = Token.chars ws := by
  induction h with
  | nil => rfl
  | same hb _ ih =>
    obtain ⟨-, hl, hg⟩ := Token.bare_eq_iff.1 hb
    rw [Token.chars_cons, Token.chars_cons, ih, hl, hg]
  | shift _ hl _ ih =>
    have hchars : ">>".toList = (closer "").lexeme.toList ++ (closer "").lexeme.toList := by decide
    have hcloser : ∀ g, (closer g).gap = g ∧ (closer g).lexeme = (closer "").lexeme :=
      fun _ => ⟨rfl, rfl⟩
    simp [ih, hl, hchars, hcloser]

theorem map_kind_lead (g : String) (ts : List Token) :
    (lead g ts).map Token.kind = ts.map Token.kind := by
  cases ts <;> rfl

theorem map_kind_bare (ts : List Token) : (ts.map Token.bare).map Token.kind = ts.map Token.kind := by
  rw [List.map_map]
  rfl

theorem chars_bare (ts : List Token) : Token.chars (ts.map Token.bare) = Token.chars ts := by
  induction ts with
  | nil => rfl
  | cons t ts ih =>
    rw [List.map_cons, Token.chars_cons, Token.chars_cons, ih]
    rfl

theorem lead_bare (g : String) (ts : List Token) :
    lead g (ts.map Token.bare) = (lead g ts).map Token.bare := by
  cases ts <;> rfl

/-! ## What is read as a default -/

/-- A default is the front part of the tokens that it is read from. -/
theorem isPrefix_of_capture {openers : List Kind} {last? : Option Kind} {ts ds : List Token}
    (h : capture openers last? ts = .ok ds) : ds <+: ts := by
  induction ts generalizing openers last? ds with
  | nil =>
    cases openers with
    | nil => cases h; exact List.nil_prefix
    | cons k openers => cases h
  | cons t ts ih =>
    rw [capture] at h
    split at h
    · cases h
      exact List.nil_prefix
    · split at h
      · cases h
      · next openers' _ =>
        rcases hc : capture openers' (some t.kind) ts with e | es
        · rw [hc] at h; cases h
        · rw [hc] at h
          cases h
          exact (List.cons_prefix_cons).2 ⟨rfl, ih hc⟩

/-- Tokens in front of others in a text have a text of their own. -/
theorem LexesFrom.isDefault {gap cs : List Char} {ds ts : List Token}
    (h : LexesFrom gap cs (ds.map Token.bare ++ ts)) (hd : ds ≠ []) :
    IsDefault (textOf ds) ∧ defaultWords (textOf ds) = lead "" (ds.map Token.bare) ∧
      ∃ q, LexesFrom [] q ts := by
  obtain ⟨z, q, -, -, hchars, hq, hread⟩ := h.cut (by simpa using hd)
  have hnil : LexesFrom [] [] [] := .done rfl
  have hrun : LexesFrom gap z (ds.map Token.bare) := by
    have hall := hread [] [] (by simp [Breaks]) hnil
    rwa [List.append_nil, List.append_nil] at hall
  obtain ⟨t, us, rfl⟩ := List.exists_cons_of_ne_nil hd
  rw [List.map_cons] at hrun hchars
  obtain ⟨x, y, rfl, hgap, hy⟩ := hrun.strip
  -- the text in front of the first token is its gap
  have htext : y = Token.chars (lead "" (t.bare :: us.map Token.bare)) := by
    rw [Token.chars_cons, hgap, List.append_assoc, List.append_cancel_left_eq,
      List.append_cancel_left_eq] at hchars
    rw [hchars, lead_cons, Token.chars_cons]
    rfl
  have hsource : (textOf (t :: us)).toList = y := by
    rw [toList_textOf, htext, ← List.map_cons, lead_bare, chars_bare]
  rw [← hsource] at hy
  obtain ⟨he, hts⟩ := (lexes_iff_ofSource _ _).1 hy
  have hwords : defaultWords (textOf (t :: us)) = lead "" (t.bare :: us.map Token.bare) := hts
  refine ⟨⟨he, ?_, ?_⟩, hwords, q, hq⟩
  · rw [hwords]
    exact flush_cons rfl _
  · rw [hwords, hsource, htext]

namespace Parse

variable {s : TokenStream} {us : List Token}

theorem yields_defaultValue (h : Clean s) :
    Yields defaultValue s fun d s' => IsDefault d ∧ Clean s' ∧
      ∀ us, Ends us → ClosesAlike s'.ahead us →
        DefaultFits d us ∧ ClosesAlike s.ahead (defaultWords d ++ us) := by
  intro d s' hrun
  unfold defaultValue at hrun
  split at hrun
  · cases hrun
  · next ts hne hcap =>
    cases hrun
    obtain ⟨hstop, gap, cs, hlex⟩ := h
    obtain ⟨rest, hrest⟩ := isPrefix_of_capture hcap
    have hts : ts ≠ [] := by
      intro he
      exact hne he
    rw [← hrest, List.map_append] at hlex
    obtain ⟨hd, hwords, q, hq⟩ := hlex.isDefault hts
    -- the stream goes on behind the tokens of the default
    have hahead : (s.skip ts.length).ahead = rest := by
      rw [TokenStream.skip, ← hrest]
      exact List.drop_left
    have hkinds : ts.map Token.kind = (defaultWords (textOf ts)).map Token.kind := by
      rw [hwords, map_kind_lead, map_kind_bare]
    refine ⟨hd, ⟨hstop, [], q, by rwa [hahead]⟩, ?_⟩
    intro us hend halike
    rw [hahead] at halike
    rw [← hrest] at hcap ⊢
    exact ⟨capture_congr hcap hkinds halike hend, closesAlike_capture hcap hkinds halike⟩
  · cases hrun
  · cases hrun

theorem runs_defaultValue {d g : String} (hd : IsDefault d) (hf : DefaultFits d us)
    (hend : Ends us) (h : At s (lead g (defaultWords d) ++ us)) :
    Runs defaultValue s fun d' s' => d' = d ∧ At s' us := by
  obtain ⟨past, ahead, stop⟩ := s
  obtain ⟨hspell, hstop⟩ := h
  -- gaps do not matter to the end of a default
  have hcap : capture [] none (lead g (defaultWords d) ++ us) = .ok (lead g (defaultWords d)) :=
    capture_congr hf (map_kind_lead g _).symm (.refl us) hend
  obtain ⟨es, ts, rfl, hes, hts, hread⟩ := capture_spells hspell hcap hend
  have htext : textOf es = d := by
    apply String.toList_inj.1
    rw [toList_textOf, (hes.lead "").chars_eq, lead_lead, hd.flush.lead_empty, hd.chars]
  have hne : es ≠ [] := by
    intro he
    rw [he] at hes
    have hweight := hes.totalWeight_eq
    have hpos := Token.totalWeight_pos hd.flush.ne_nil
    rw [Token.totalWeight_lead, Token.totalWeight] at hweight
    omega
  refine ⟨d, TokenStream.skip ⟨past, es ++ ts, stop⟩ es.length, ?_, rfl, ?_, hstop⟩
  · obtain ⟨e, es, rfl⟩ := List.exists_cons_of_ne_nil hne
    rw [defaultValue, hread]
    dsimp only
    rw [htext]
  · rw [TokenStream.skip]
    dsimp only
    rwa [List.drop_left]

end Parse

/-! ## Defaults that may be missing -/

/-- The words of a default behind its equals sign; none without a default. -/
def optionWords : Option String → List Token
  | some d => (Token.sign .equal).behind " " :: lead " " (defaultWords d)
  | none => []

theorem chars_optionWords {d? : Option String} (h : ∀ d ∈ d?, IsDefault d) :
    Token.chars (optionWords d?) = (defaultText d?).toList := by
  cases d? with
  | none => rfl
  | some d =>
    have hd := h d rfl
    rw [optionWords, Token.chars_cons, chars_lead hd.flush, hd.chars, defaultText,
      String.toList_append]
    rfl

theorem headKind_of_ends {us : List Token} (h : Ends us) :
    headKind us = .comma ∨ headKind us = .semicolon ∨ headKind us = .rightParen := by
  simpa [Ends, isEnd, or_assoc] using h

namespace Parse

variable {s : TokenStream} {us : List Token}

theorem yields_optionalDefault (h : Sound s) :
    Yields optionalDefault s fun d? s' => (∀ d ∈ d?, IsDefault d) ∧ Sound s' ∧
      ∀ us, Ends us → ClosesAlike s'.ahead us →
        (∀ d ∈ d?, DefaultFits d us) ∧ ClosesAlike s.ahead (optionWords d? ++ us) := by
  refine (yields_eat .equal).bind ?_
  intro b s1 h1
  cases b with
  | false =>
    obtain ⟨-, rfl⟩ := h1
    exact .pure ⟨by simp, h, fun us _ halike => ⟨by simp, halike⟩⟩
  | true =>
    obtain ⟨hk, rfl⟩ := h1
    refine (yields_defaultValue h.advance).bind ?_
    intro d s2 h2
    obtain ⟨hd, hs, hfits⟩ := h2
    refine .pure ⟨by simpa using hd, hs.sound, ?_⟩
    intro us hend halike
    obtain ⟨hfit, hpass⟩ := hfits us hend halike
    refine ⟨by simpa using hfit, ?_⟩
    -- the search for a closing bracket passes the equals sign, and the gap behind it is another one
    have hequal : ClosesAlike s.ahead s.advance.ahead :=
      alike_advance (by rw [hk]; exact fun _ _ => rfl)
    intro a
    have hlead : ClosesAlike (lead " " (defaultWords d) ++ us) (defaultWords d ++ us) :=
      closesAlike_capture (capture_congr hfit (map_kind_lead " " _).symm (.refl us) hend)
        (map_kind_lead " " _) (.refl us)
    rw [optionWords, List.cons_append, closesAngle_neutral fun _ _ => rfl]
    exact (hequal.trans (hpass.trans hlead.symm)) a

theorem runs_optionalDefault {d? : Option String} (hd : ∀ d ∈ d?, IsDefault d)
    (hf : ∀ d ∈ d?, DefaultFits d us) (hend : Ends us) (h : At s (optionWords d? ++ us)) :
    Runs optionalDefault s fun d' s' => d' = d? ∧ At s' us := by
  cases d? with
  | none =>
    have hne : headKind us ≠ .equal := by
      rcases headKind_of_ends hend with hk | hk | hk <;> simp [hk]
    refine (runs_eat_no h hne (by decide)).seq ?_
    intro s1 h1
    exact .pure ⟨rfl, h1⟩
  | some d =>
    refine (runs_eat (k := .equal) h rfl (by decide)).seq ?_
    intro s1 h1
    refine (runs_defaultValue (hd d rfl) (hf d rfl) hend h1).seq ?_
    intro s2 h2
    exact .pure ⟨rfl, h2⟩

end Parse

end TemplateIdl
