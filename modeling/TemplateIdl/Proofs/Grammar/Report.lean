import TemplateIdl.Proofs.Decl.Places
import TemplateIdl.Proofs.Grammar.Buffer

/-!
# Report — where syntax errors are reported

* `TokenStream.Within`, a stream of which all tokens stand at certain places, and
  `Comparison.within`, such a stream compared with itself;
* `TokenStream.CutFrom.within`, the stream of a text is one;
* `Parse.report_of_interface` and `Interface.report_of_parse_error`, errors are reported at such
  places only;
* `Interface.isReal_of_parse_error`, so all errors in a text are reported at real places.
-/

namespace TemplateIdl

open TokenStream

/-- The tokens ahead stand at places that satisfy `P`, and so do the halves of shifts. -/
structure TokenStream.Within (P : Span → Prop) (s : TokenStream) : Prop where
  stop_kind : s.stop.kind = .eof
  stop : P s.stop.span
  ahead : ∀ t ∈ s.ahead, P t.span
  halves : ∀ t ∈ s.ahead, t.kind = .greaterGreater →
    P (firstHalf t).span ∧ P (secondHalf t).span

namespace TokenStream.Within

variable {P : Span → Prop} {s t : TokenStream}

theorem advance (h : Within P s) : Within P s.advance := by
  obtain ⟨past, ahead, stop⟩ := s
  cases ahead with
  | nil => exact h
  | cons t ts =>
    exact ⟨h.stop_kind, h.stop, fun u hu => h.ahead u (List.mem_cons_of_mem t hu),
      fun u hu => h.halves u (List.mem_cons_of_mem t hu)⟩

theorem split (h : Within P s) : Within P s.splitShift := by
  obtain ⟨past, ahead, stop⟩ := s
  cases ahead with
  | nil => exact h
  | cons t ts =>
    unfold splitShift
    dsimp only
    split
    · next hk =>
      obtain ⟨h1, h2⟩ := h.halves t List.mem_cons_self hk
      refine ⟨h.stop_kind, h.stop, ?_, ?_⟩
      · have hts := (List.forall_mem_cons.1 h.ahead).2
        exact List.forall_mem_cons.2 ⟨h1, List.forall_mem_cons.2 ⟨h2, hts⟩⟩
      · -- the halves are no shifts
        have hts := (List.forall_mem_cons.1 h.halves).2
        exact List.forall_mem_cons.2 ⟨nofun, List.forall_mem_cons.2 ⟨nofun, hts⟩⟩
    · exact h

theorem moves (h : Within P s) (hm : Moves s t) : Within P t :=
  hm.keeps (fun _ => advance) (fun _ => split) h

theorem peek (h : Within P s) : P s.peek.span := by
  obtain ⟨past, ahead, stop⟩ := s
  cases ahead with
  | nil => exact h.stop
  | cons t ts => exact h.ahead t List.mem_cons_self

end TokenStream.Within

/-- A stream compared with itself. Errors are reported at places that satisfy `P`, as all tokens
do. -/
def Comparison.within (P : Span → Prop) (hP : ∀ {a b}, P a → P b → P (a.merge b)) :
    Comparison where
  left := id
  right := id
  spaces := id
  reports := P
  streams s s' := s = s' ∧ Within P s
  limit := 0
  finished _ _ := False
  merge := by
    rintro a _ b _ ⟨rfl, ha⟩ ⟨rfl, hb⟩
    exact ⟨rfl, hP ha hb⟩
  stop_kind := by
    rintro s _ ⟨rfl, h⟩
    exact ⟨h.stop_kind, h.stop_kind⟩
  peek := by
    rintro s _ ⟨rfl, h⟩
    exact ⟨rfl, rfl, rfl, h.peek⟩
  second := by
    rintro s _ ⟨rfl, -⟩ -
    rfl
  advance := by
    rintro s _ ⟨rfl, h⟩
    exact .inr ⟨rfl, h.advance⟩
  split := by
    rintro s _ ⟨rfl, h⟩
    exact ⟨rfl, h.split⟩
  capture := by
    rintro s _ ts ⟨rfl, h⟩ hts
    exact .inr ⟨ts, hts, rfl, rfl, rfl, h.moves (.skip s _)⟩
  value := by
    rintro s _ n ⟨rfl, h⟩ hn
    exact .inr ⟨hn, rfl, h.moves (.skip s n)⟩
  close := by
    rintro s _ ⟨rfl, h⟩ -
    exact .inl ⟨rfl, h.advance⟩
  weight_lt := False.elim
  reports_ahead := by
    rintro s _ ⟨rfl, h⟩ t ht
    rcases List.mem_cons.1 ht with rfl | ht
    · exact h.stop
    · exact h.ahead t ht
  reports_behind _ h := absurd h (Nat.lt_irrefl 0)

/-- The rule for files reports errors at places of tokens and of halves of shifts. -/
theorem Parse.report_of_interface {P : Span → Prop} (hP : ∀ {a b}, P a → P b → P (a.merge b))
    {s t : TokenStream} {e : ParseError} (hs : Within P s)
    (h : Parse.interface s = .error e t) : P e.span := by
  have hfollows := Comparison.follows_interface (C := Comparison.within P hP) (fun _ _ => rfl)
    (fun _ _ _ => rfl) rfl
  exact (hfollows s s ⟨rfl, hs⟩).error h

/-! ## Whole texts -/

/-- Halves of shifts stand in the text as tokens of their own. -/
theorem TokenStream.CutFrom.within {P : Span → Prop} {cs : List Char} {s : TokenStream}
    (h : CutFrom cs s) (hstop : P s.stop.span) (hahead : ∀ t ∈ s.ahead, P t.span)
    (hhalf : ∀ t : Token, t.Stands cs → t.lexeme = ">" → P t.span) : Within P s := by
  refine ⟨h.stop, hstop, hahead, ?_⟩
  intro t ht hk
  have hstands := h.stands t (by simp [buffer, ht])
  obtain ⟨hfirst, hsecond, -⟩ := hstands.halves (h.shifts t ht hk)
  exact ⟨hhalf _ hfirst rfl, hhalf _ hsecond rfl⟩

/-- What holds of the places of all tokens of a text, of the halves of shifts and of all merged
places, holds of the places of errors. -/
theorem Interface.report_of_parse_error {P : Span → Prop}
    (hP : ∀ {a b}, P a → P b → P (a.merge b)) {source : String} {es : List ParseError}
    (htokens : ∀ t ∈ (Lexed.ofSource source).tokens ++ [(Lexed.ofSource source).stop], P t.span)
    (hhalf : ∀ t : Token, t.Stands source.toList → t.lexeme = ">" → P t.span)
    (h : Interface.parse source = .error es) : ∀ e ∈ es, P e.span := by
  simp only [List.forall_mem_append, List.forall_mem_singleton] at htokens
  obtain ⟨htokens, hstop⟩ := htokens
  have hwithin : Within P (.ofLexed (Lexed.ofSource source)) :=
    (cutFrom_ofSource source).within hstop (fun t ht => htokens t (List.mem_filter.1 ht).1) hhalf
  unfold Interface.parse parseWith at h
  dsimp only at h
  split at h
  · rw [EStateM.run] at h
    rcases hrun : Parse.interface (.ofLexed (Lexed.ofSource source)) with ⟨m, t⟩ | ⟨e, t⟩
    · rw [hrun] at h
      cases h
    · rw [hrun] at h
      cases h
      have hreport := Parse.report_of_interface hP hwithin hrun
      simpa using hreport
  · cases h
    -- each fault is reported at its place
    intro e he
    obtain ⟨l, hl, rfl⟩ := List.mem_map.1 he
    have hspan : l.span ∈ (Lexed.ofSource source).errors.map LexError.span :=
      List.mem_map_of_mem hl
    rw [Lexed.spans_errors_ofSource] at hspan
    obtain ⟨t, ht, hts⟩ := List.mem_map.1 hspan
    have htoken := htokens t (List.mem_filter.1 ht).1
    rwa [hts] at htoken

/-- All errors in a text are reported at real places. -/
theorem Interface.isReal_of_parse_error {source : String} {es : List ParseError}
    (h : Interface.parse source = .error es) : ∀ e ∈ es, e.span.IsReal source := by
  have hhalf : ∀ t : Token, t.Stands source.toList → t.lexeme = ">" →
      Span.LiesIn source.toList t.span := fun _ ht _ => ht.liesIn
  have hlies := report_of_parse_error Span.LiesIn.merge (Lexed.liesIn_ofSource source) hhalf h
  exact fun e he => (hlies e he).isReal

end TemplateIdl
