import TemplateIdl.Proofs.Decl.Image
import TemplateIdl.Proofs.Decl.Spans
import TemplateIdl.Proofs.Decl.Text
import TemplateIdl.Proofs.TypeExpr.Read

/-!
# Reading declarations — what declarations share is read from its words

* `Parse.runs_templateHeader`, `Parse.runs_returnType` and `Parse.runs_arguments`, the parts of
  declarations;
* `Parse.runs_end` and `Parse.runs_defaultEnd`, the ends of declarations;
* `Parse.runs_enumeration`, enumerations.
-/

namespace TemplateIdl

open DefaultValue

theorem endsType_cons {w : Token} {k : Kind} (hw : w.kind = k)
    (hk : k ∉ [Kind.star, .atSign, .amp, .less, .colonColon]) (us : List Token) :
    EndsType (w :: us) := by
  rw [EndsType, headKind_cons, hw]
  exact hk

/-- Whether a type use outside of template arguments can begin with a token of the kind. -/
def Kind.beginsType (k : Kind) : Bool := k == .kwConst || k.isBasicType || k == .identifier

theorem beginsType_words {t : TypeExpr} (h : t.WellFormed false) :
    (headKind t.words).beginsType = true := by
  rcases Parse.headKind_words h with hk | hk | hk | hk
  · rw [hk]
    rfl
  · simp [Kind.beginsType, hk]
  · rw [hk]
    rfl
  · exact absurd hk.1 (by decide)

theorem Kind.isBasicType_of_beginsType {k : Kind} (h : k.beginsType = true) (hconst : k ≠ .kwConst)
    (hident : k ≠ .identifier) : k.isBasicType = true := by
  rw [beginsType, Bool.or_eq_true, Bool.or_eq_true, beq_iff_eq, beq_iff_eq] at h
  rcases h with (hk | hk) | hk
  · exact absurd hk hconst
  · exact hk
  · exact absurd hk hident

theorem headKind_words_ne {t : TypeExpr} (h : t.WellFormed false) {k : Kind}
    (hk : k.beginsType = false) : headKind t.words ≠ k := by
  rintro rfl
  rw [beginsType_words h] at hk
  cases hk

namespace Parse

variable {s : TokenStream} {us : List Token} {g : String}

/-! ## Template headers -/

/-- Types with commas between them in front of a bracket. -/
theorem runs_typeList {ts : List TypeExpr} (hts : ∀ t ∈ ts, t.WellFormed false) (hne : ts ≠ [])
    (h : At s (joinWords (ts.map TypeExpr.words) ++ .sign .rightBrace :: us)) :
    Runs (commaSeparated typeUse) s fun ts' s' => ts' = ts ∧ At s' (.sign .rightBrace :: us) := by
  have hflush : Flush (joinWords (ts.map TypeExpr.words)) := by
    refine flush_joinWords ?_ (by simpa using hne)
    intro ws hws
    obtain ⟨t, -, rfl⟩ := List.mem_map.1 hws
    exact t.flush_words
  rw [← hflush.lead_empty] at h
  refine (runs_commaSeparated (R := Eq) ?_ (fun t _ => t.flush_words.ne_nil) (by simp) hne h).mono ?_
  · intro t rest hsuffix g s hs
    have hends : EndsType (commaWords (.sign .rightBrace :: us) (rest.map TypeExpr.words)) :=
      commaWords_of (fun _ => endsType_cons (k := .comma) rfl (by decide) _)
        (endsType_cons (k := .rightBrace) rfl (by decide) _) _
    refine (runs_typeUse (hts t (hsuffix.subset (by simp))) hs hends).mono ?_
    exact fun t' s' ht => ⟨ht.1.symm, ht.2⟩
  · intro ts' s' hts'
    rw [List.forall₂_eq_eq_eq] at hts'
    exact ⟨hts'.1.symm, hts'.2⟩

theorem runs_choices {ts : List TypeExpr} (hts : ∀ t ∈ ts, t.WellFormed false)
    (hus : headKind us ≠ .equal)
    (h : At s ((if ts.isEmpty then []
      else (Token.sign .equal).behind " " :: (Token.sign .leftBrace).behind " " ::
        (joinWords (ts.map TypeExpr.words) ++ [.sign .rightBrace])) ++ us)) :
    Runs choices s fun ts' s' => ts' = ts ∧ At s' us := by
  by_cases hne : ts = []
  · rw [if_pos (by simpa using hne)] at h
    refine (runs_eat_no h hus (by decide)).seq ?_
    intro s1 h1
    exact .pure ⟨hne.symm, h1⟩
  · rw [if_neg (by simpa using hne)] at h
    simp only [List.cons_append, List.append_assoc, List.nil_append] at h
    refine (runs_eat (k := .equal) h rfl (by decide)).seq ?_
    intro s1 h1
    refine (runs_expect (k := .leftBrace) h1 rfl (by decide)).drop ?_
    intro _ s2 h2
    obtain ⟨t, rest, hcons⟩ := List.exists_cons_of_ne_nil hne
    have hhead : headKind (joinWords (ts.map TypeExpr.words) ++ .sign .rightBrace :: us) ≠
        .rightBrace := by
      rw [hcons, List.map_cons, headKind_joinWords t.flush_words.ne_nil]
      exact headKind_words_ne (hts t (by simp [hcons])) rfl
    refine (runs_check_no h2.2 hhead (by decide)).seq ?_
    intro s3 h3
    refine (runs_typeList hts hne h3).seq ?_
    intro s4 h4
    refine (runs_expect (k := .rightBrace) h4 rfl (by decide)).drop ?_
    intro _ s5 h5
    exact .pure ⟨rfl, h5.2⟩

theorem runs_templateParam {p : TemplateParam} (hp : p.WellFormed) (hus : headKind us ≠ .equal)
    (h : At s (lead g p.words ++ us)) :
    Runs templateParam s fun p' s' => p' = p ∧ At s' us := by
  refine (runs_expectIdentifier h rfl).seq ?_
  intro s1 h1
  refine (runs_choices hp.choices hus h1).seq ?_
  intro s2 h2
  exact .pure ⟨rfl, h2⟩

theorem runs_templateHeader {t : Template} (ht : t.WellFormed) (h : At s (lead g t.words ++ us)) :
    Runs templateHeader s fun t' s' => t' = t ∧ At s' us := by
  rw [Template.words, lead_cons, List.cons_append, List.cons_append, List.append_assoc] at h
  refine (runs_expect (k := .kwTemplate) h rfl (by decide)).drop ?_
  intro _ s1 h1
  refine (runs_bracketed (R := Eq) (Q := fun us => headKind us ≠ .equal) _ ?_
    (fun p _ => p.flush_words) ?_ (by simp) (by simp [closer]) ht.ne_nil rfl h1.2).bind ?_
  · intro p hp g s vs hs hvs
    refine (runs_templateParam (ht.params p hp) hvs hs).mono ?_
    exact fun p' s' hp' => ⟨hp'.1.symm, hp'.2⟩
  · intro p _
    simp [TemplateParam.words, Token.ident, Token.word]
  · intro ps s2 h2
    rw [List.forall₂_eq_eq_eq] at h2
    rw [← h2.1]
    exact .pure ⟨rfl, h2.2⟩

/-! ## Results and arguments -/

theorem runs_returnType {r : ReturnType} (hr : r.WellFormed) (hus : EndsType us)
    (h : At s (lead g r.words ++ us)) : Runs returnType s fun r' s' => r' = r ∧ At s' us := by
  refine (runs_typeUse hr.written h hus).seq ?_
  intro s1 h1
  exact .pure ⟨hr.ofType_written, h1⟩

theorem runs_argument {a : Argument} (ha : a.WellFormed) (hf : ∀ d ∈ a.default?, DefaultFits d us)
    (hend : Ends us) (h : At s (lead g a.words ++ us)) :
    Runs argument s fun a' s' => a' = a ∧ At s' us := by
  rw [Argument.words, lead_append a.type.flush_words.ne_nil, List.append_assoc,
    List.cons_append] at h
  refine (runs_typeUse ha.type h (endsType_cons (k := .identifier) rfl (by decide) _)).seq ?_
  intro s1 h1
  refine (runs_expectIdentifier h1 rfl).seq ?_
  intro s2 h2
  refine (runs_optionalDefault ha.isDefault hf hend h2).seq ?_
  intro s3 h3
  exact .pure ⟨rfl, h3⟩

theorem fits_of_suffix {args rest : List Argument} {a : Argument} (h : ArgumentsFit us args)
    (hsuffix : a :: rest <:+ args) :
    ∀ d ∈ a.default?, DefaultFits d (commaWords us (rest.map Argument.words)) := by
  induction args with
  | nil => exact absurd (List.suffix_nil.1 hsuffix) (by simp)
  | cons b args ih =>
    rcases List.suffix_cons_iff.1 hsuffix with he | hs
    · obtain ⟨rfl, rfl⟩ := List.cons.inj he
      exact h.1
    · exact ih h.2 hs

/-- Arguments in parentheses, whatever stands behind them. -/
theorem runs_arguments {args : List Argument} (hargs : WellFormedArguments args)
    (h : At s (argumentsWords args ++ us)) :
    Runs arguments s fun args' s' => args' = args ∧ At s' us := by
  rw [argumentsWords, List.cons_append, List.append_assoc] at h
  refine (runs_peek_kind h (by simp)).bind ?_
  intro opening s1 h1
  have hk : opening.kind = .leftParen := h1.1
  rw [if_pos hk]
  refine (runs_advance h1.2 (by simp)).drop ?_
  intro _ s2 h2
  by_cases hne : args = []
  · rw [hne] at h2
    refine (runs_eat (k := .rightParen) h2.2 rfl (by decide)).seq ?_
    intro s3 h3
    exact .pure ⟨hne.symm, h3⟩
  · obtain ⟨a, rest, hcons⟩ := List.exists_cons_of_ne_nil hne
    have hflush : Flush (joinWords (args.map Argument.words)) := by
      refine flush_joinWords ?_ (by simpa using hne)
      intro ws hws
      obtain ⟨b, -, rfl⟩ := List.mem_map.1 hws
      exact b.type.flush_words.append _
    have hhead : headKind (joinWords (args.map Argument.words) ++ .sign .rightParen :: us) ≠
        .rightParen := by
      rw [hcons, List.map_cons, headKind_joinWords a.words_ne_nil, Argument.words,
        headKind_append a.type.flush_words.ne_nil]
      exact headKind_words_ne (hargs.each a (by simp [hcons])).type rfl
    refine (runs_eat_no (k := .rightParen) h2.2 hhead (by decide)).seq ?_
    intro s3 h3
    rw [← hflush.lead_empty] at h3
    have hend : Ends (Token.sign .rightParen :: us) := rfl
    refine (runs_commaSeparated (R := Eq) ?_ (fun b _ => b.words_ne_nil) (by simp) hne h3).bind ?_
    · intro b bs hsuffix g s hs
      refine (runs_argument (hargs.each b (hsuffix.subset (by simp)))
        (fits_of_suffix (hargs.fits us) hsuffix) (Ends.commaWords hend _) hs).mono ?_
      exact fun a' s' ha => ⟨ha.1.symm, ha.2⟩
    · intro args' s4 h4
      refine (runs_expect (k := .rightParen) h4.2 rfl (by decide)).drop ?_
      intro _ s5 h5
      refine .pure ⟨?_, h5.2⟩
      rw [List.forall₂_eq_eq_eq] at h4
      exact h4.1.symm

/-! ## Ends of declarations -/

/-- A semicolon, behind which the place of what was read is known. -/
theorem runs_end {α : Type} {start : Span} {make : Span → α} {P : α → Prop}
    (hmake : ∀ span, P (make span)) (h : At s (.sign .semicolon :: us)) :
    Runs (do
      discard (expect .semicolon)
      let span ← spanFrom start
      pure (make span)) s fun a s' => P a ∧ At s' us := by
  refine (runs_expect (k := .semicolon) h rfl (by decide)).drop ?_
  intro _ s1 h1
  refine (runs_spanFrom start h1.2).bind ?_
  intro span s2 h2
  exact .pure ⟨hmake span, h2⟩

theorem WellFormedDefault.fits {d? : Option String} (h : WellFormedDefault d?) (us : List Token) :
    ∀ d ∈ d?, DefaultFits d (.sign .semicolon :: us) := by
  intro d hd
  refine (h d hd).2.congr ?_ rfl
  intro a
  rw [closesAngle_stop (.inr rfl), closesAngle_stop (.inr rfl)]

theorem headKind_optionWords (d? : Option String) :
    headKind (optionWords d? ++ .sign .semicolon :: us) ≠ .leftParen := by
  cases d? with
  | none => simp [optionWords]
  | some d => simp [optionWords]

/-- A default in front of a semicolon. -/
theorem runs_defaultEnd {α : Type} {start : Span} {make : Option String → Span → α} {P : α → Prop}
    {d? : Option String} (hd : WellFormedDefault d?) (hmake : ∀ span, P (make d? span))
    (h : At s (optionWords d? ++ .sign .semicolon :: us)) :
    Runs (do
      let default? ← optionalDefault
      discard (expect .semicolon)
      let span ← spanFrom start
      pure (make default? span)) s fun a s' => P a ∧ At s' us := by
  have hend : Ends (Token.sign .semicolon :: us) := rfl
  refine (runs_optionalDefault hd.isDefault (WellFormedDefault.fits hd us) hend h).seq ?_
  intro s1 h1
  exact runs_end hmake h1

/-! ## Enumerations -/

theorem runs_unfold_enumeratorRule {name : String} {names : List String} {n : Nat}
    (hn : Token.totalWeight (lead g [Token.ident name] ++
      commaWords (.sign .rightBrace :: us) (names.map fun n => [Token.ident n])) ≤ n)
    (h : At s (lead g [Token.ident name] ++
      commaWords (.sign .rightBrace :: us) (names.map fun n => [Token.ident n]))) :
    Runs (unfold enumeratorRule n ()) s
      fun ns s' => ns = name :: names ∧ At s' (.sign .rightBrace :: us) := by
  induction n generalizing name names s g with
  | zero =>
    have hpos := (Token.ident name).weight_pos
    rw [Token.totalWeight_append, Token.totalWeight_lead, Token.totalWeight] at hn
    omega
  | succ n ih =>
    refine (runs_check_no (k := .rightBrace) h (by simp [Token.ident, Token.word])
      (by decide)).seq ?_
    intro s1 h1
    refine (runs_expectIdentifier h1 rfl).seq ?_
    intro s2 h2
    cases names with
    | nil =>
      refine (runs_eat_no (k := .equal) h2 (by simp [commaWords]) (by decide)).seq ?_
      intro s3 h3
      refine (runs_eat_no (k := .comma) h3 (by simp [commaWords]) (by decide)).seq ?_
      intro s4 h4
      exact .pure ⟨rfl, h4⟩
    | cons m names =>
      refine (runs_eat_no (k := .equal) h2 (by simp [commaWords]) (by decide)).seq ?_
      intro s3 h3
      refine (runs_eat (k := .comma) h3 rfl (by decide)).seq ?_
      intro s4 h4
      have hw : Token.totalWeight (lead " " [Token.ident m] ++
          commaWords (.sign .rightBrace :: us) (names.map fun n => [Token.ident n])) ≤ n := by
        have hpos := (Token.ident name).weight_pos
        simp only [List.map_cons, commaWords, Token.totalWeight_append, Token.totalWeight_lead,
          Token.totalWeight] at hn ⊢
        omega
      refine (ih hw h4).seq ?_
      intro s5 h5
      exact .pure ⟨rfl, h5⟩

/-- The enumerators in front of the closing brace. -/
theorem runs_enumerators {names : List String}
    (h : At s (joinWords (names.map fun n => [Token.ident n]) ++ .sign .rightBrace :: us)) :
    Runs enumerators s fun ns s' => ns = names ∧ At s' (.sign .rightBrace :: us) := by
  rw [enumerators_eq]
  cases names with
  | nil =>
    refine .fix ((runs_check (k := .rightBrace) h rfl (by decide)).seq ?_)
    intro s1 h1
    exact .pure ⟨rfl, h1⟩
  | cons name names =>
    have hall : ∀ ws ∈ [Token.ident name] :: names.map fun n => [Token.ident n], Flush ws := by
      intro ws hws
      obtain ⟨n, -, rfl⟩ := List.mem_map.1 (List.map_cons (f := fun n => [Token.ident n]) ▸ hws)
      exact flush_cons rfl _
    rw [List.map_cons, ← (flush_joinWords hall (by simp)).lead_empty,
      lead_joinWords fun ws hws => (hall ws hws).ne_nil] at h
    refine .fix (runs_unfold_enumeratorRule ?_ h)
    rw [h.weight_eq]
    omega

/-- An enumeration, up to its place. -/
theorem runs_enumeration {ns : List String} {d : EnumDecl} (hd : d.WellFormed ns)
    (h : At s (lead g d.words ++ us)) :
    Runs (enumeration ns) s fun d' s' => d'.eraseSpans = d.eraseSpans ∧ At s' us := by
  obtain ⟨name, names, isScoped, ns', span⟩ := d
  obtain rfl : ns' = ns := hd.namespaces
  refine (runs_expect (k := .kwEnum) h rfl (by decide)).bind ?_
  intro start s1 h1
  have hrest : ∀ s g, At s (lead g (.ident name :: (Token.sign .leftBrace).behind " " ::
      (joinWords (names.map fun n => [.ident n]) ++ [.sign .rightBrace, .sign .semicolon])) ++ us) →
      Runs (do
        let name ← expectIdentifier
        discard (expect .leftBrace)
        let names ← enumerators
        discard (expect .rightBrace)
        discard (expect .semicolon)
        let span ← spanFrom start.span
        pure ⟨name, names, isScoped, ns', span⟩) s
          fun (d' : EnumDecl) s' =>
            d'.eraseSpans = EnumDecl.eraseSpans ⟨name, names, isScoped, ns', span⟩ ∧ At s' us := by
    intro s g hs
    simp only [lead_cons, List.cons_append, List.append_assoc, List.nil_append] at hs
    refine (runs_expectIdentifier hs rfl).seq ?_
    intro s3 h3
    refine (runs_expect (k := .leftBrace) h3 rfl (by decide)).drop ?_
    intro _ s4 h4
    refine (runs_enumerators h4.2).seq ?_
    intro s5 h5
    refine (runs_expect (k := .rightBrace) h5 rfl (by decide)).drop ?_
    intro _ s6 h6
    exact runs_end (fun _ => rfl) h6.2
  cases isScoped with
  | true =>
    refine (runs_eat (k := .kwClass) h1.2 rfl (by decide)).seq ?_
    intro s2 h2
    exact (Runs.pure ⟨rfl, h2⟩).seq fun s3 h3 => hrest s3 " " h3
  | false =>
    refine (runs_eat_no (k := .kwClass) h1.2 (by simp [Token.ident, Token.word])
      (by decide)).seq ?_
    intro s2 h2
    refine (runs_eat_no (k := .kwStruct) h2 (by simp [Token.ident, Token.word]) (by decide)).seq ?_
    exact fun s3 h3 => hrest s3 " " h3

end Parse

end TemplateIdl
