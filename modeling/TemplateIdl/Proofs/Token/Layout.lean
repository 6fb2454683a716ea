import TemplateIdl.Proofs.Text.Place
import TemplateIdl.Proofs.Token.Legible

/-!
# Layout — where the tokens of a text stand

* `Skips`, text that holds no token: blanks, byte order marks and whole comments;
* `Laid`, tokens at their places in a text, with skipped text between them, and `laid_ofSource`,
  the tokens of a text are laid out in it;
* `Reaches`, a place that reaches over a run of tokens, and `Laid.covers_run`, the text that it
  covers then;
* `Lexed.pos_of_mem_tokens`, `Lexed.liesIn_ofSource` and `Lexed.spans_errors_ofSource`, the places of
  tokens and of faults;
* `Lexed.Partitions`, what that means for the text as a whole, and `Lexed.partitions_ofSource`.
-/

namespace TemplateIdl

/-- In front of the text `rest`, a text that holds no token. -/
inductive Skips (rest : List Char) : List Char → Prop
  | nil : Skips rest []
  | blank {c : Char} {cs : List Char} (hc : isBlank c = true ∨ c = '\uFEFF')
      (h : Skips rest cs) : Skips rest (c :: cs)
  /-- A line comment reaches to a line feed or to the end of all text. -/
  | line {body cs : List Char} (hb : '\n' ∉ body) (hend : ∀ d ∈ (cs ++ rest).head?, d = '\n')
      (h : Skips rest cs) : Skips rest ('/' :: '/' :: (body ++ cs))
  /-- A block comment reaches to the first end behind its opening. -/
  | block {body cs : List Char} (hb : ¬ ['*', '/'] <:+: body) (h : Skips rest cs) :
      Skips rest ('/' :: '*' :: (body ++ '*' :: '/' :: cs))

namespace Skips

theorem append {as bs rest : List Char} (ha : Skips (bs ++ rest) as) (hb : Skips rest bs) :
    Skips rest (as ++ bs) := by
  induction ha with
  | nil => exact hb
  | blank hc _ ih => exact .blank hc ih
  | line hl hend _ ih =>
    rw [List.cons_append, List.cons_append, List.append_assoc]
    exact .line hl (by simpa using hend) ih
  | block hl _ ih =>
    rw [List.cons_append, List.cons_append, List.append_assoc]
    exact .block hl ih

theorem of_blanks {cs : List Char} (rest : List Char)
    (h : ∀ c ∈ cs, isBlank c = true ∨ c = '\uFEFF') : Skips rest cs := by
  induction cs with
  | nil => exact .nil
  | cons c cs ih => exact .blank (h c (by simp)) (ih fun d hd => h d (by simp [hd]))

end Skips

theorem blanks_of_splitBlank (cs : List Char) :
    ∀ c ∈ (splitBlank cs).1, isBlank c = true ∨ c = '\uFEFF' := by
  cases cs with
  | nil => simp [splitBlank]
  | cons d ds =>
    intro c hc
    rw [splitBlank] at hc
    split at hc
    · next hd =>
      rcases List.mem_cons.1 hc with rfl | hc
      · exact .inr hd
      · exact .inl (Bite.all_takeWhile ds c hc)
    · exact .inl (Bite.all_takeWhile (d :: ds) c hc)

/-- The part up to the end of a block comment. -/
theorem Bite.splitCommentEnd_eq {cs : List Char} {s : List Char × List Char}
    (h : splitCommentEnd cs = some s) :
    ∃ body, s.1 = body ++ ['*', '/'] ∧ ¬ ['*', '/'] <:+: body := by
  induction cs using splitCommentEnd.induct generalizing s with
  | case1 => cases h
  | case2 cs =>
    cases h
    exact ⟨[], rfl, by simp⟩
  | case3 c cs hne ih =>
    rw [splitCommentEnd] at h
    · obtain ⟨t, ht, rfl⟩ := Option.map_eq_some_iff.1 h
      obtain ⟨body, hbody, hno⟩ := ih ht
      refine ⟨c :: body, by simp [hbody], ?_⟩
      rw [List.infix_cons_iff, not_or]
      refine ⟨?_, hno⟩
      rintro ⟨ds, hds⟩
      -- the end would have been found at `c`
      have happ := splitCommentEnd_append ht
      obtain ⟨rfl, rfl⟩ : '*' = c ∧ '/' :: ds = body := by simpa using hds
      refine hne (ds ++ ['*', '/'] ++ t.2) rfl ?_
      rw [← happ, hbody]
      simp
    · exact hne

theorem Skips.of_comment {c : Char} {cs l rest : List Char}
    (h : Bite.first c cs = ⟨.comment, l, rest⟩) : Skips rest l := by
  obtain ⟨rfl, ds, ⟨rfl, hb⟩ | ⟨rfl, hb⟩⟩ := Bite.first_comment h
  · simp only [Bite.lineComment, Bite.mk.injEq, true_and] at hb
    obtain ⟨rfl, rfl⟩ := hb
    have hl : ('/' :: '/' :: ds).takeWhile (· != '\n') =
        '/' :: '/' :: (ds.takeWhile (· != '\n') ++ []) := by simp
    rw [hl]
    refine .line ?_ ?_ .nil
    · intro hmem
      have := Bite.all_takeWhile ds _ hmem
      simp at this
    · intro d hd
      have := Bite.head_dropWhile _ d hd
      simpa using this
  · unfold Bite.blockComment at hb
    split at hb
    · next s hs =>
      obtain ⟨body, hbody, hno⟩ := Bite.splitCommentEnd_eq hs
      simp only [Bite.mk.injEq, true_and] at hb
      rw [← hb.1, hbody]
      exact .block hno .nil
    · simp at hb

/-! ## Tokens at their places -/

/-- Behind the text `front`, the text `cs` is cut into the tokens, with nothing between them but
skipped text, up to its end at `stop`. -/
inductive Laid : List Char → List Char → List Token → Token → Prop
  | done {front gap : List Char} (hgap : Skips [] gap) :
      Laid front gap []
        ⟨.eof, "", String.ofList gap, .point (Position.start.after (front ++ gap))⟩
  | token {front gap body rest : List Char} {t stop : Token} {ts : List Token}
      (hgap : Skips (body ++ rest) gap) (hbody : body ≠ []) (hkind : t.kind ≠ .eof)
      (hbefore : t.gap = String.ofList gap) (hspan : t.span.Covers (front ++ gap) body)
      (hlexeme : t.kind ≠ .error → t.lexeme = String.ofList body)
      (h : Laid (front ++ (gap ++ body)) rest ts stop) :
      Laid front (gap ++ (body ++ rest)) (t :: ts) stop

/-- A text behind the skipped text `gap` is laid out behind `front`. -/
theorem laid_startingAt (cs front gap : List Char) (hgap : Skips cs gap) :
    Laid front (gap ++ cs) (Lexed.startingAt (Position.start.after (front ++ gap)) gap cs).tokens
      (Lexed.startingAt (Position.start.after (front ++ gap)) gap cs).stop := by
  -- along the pieces: a comment joins the gap, all else is put out behind it
  induction cs using pieces.induct generalizing front gap with
  | case1 cs h =>
    have hcs : Skips [] cs := by
      have hb := blanks_of_splitBlank cs
      rw [splitBlank_of_scan h] at hb
      exact .of_blanks [] hb
    rw [Lexed.startingAt_none h, ← Position.after_append, List.append_assoc]
    exact .done (.append (by simpa using hgap) hcs)
  | case2 cs p rest h ih =>
    obtain ⟨c, l, r, hs, hl, hf⟩ := scan_eq_some h
    have happ := Piece.text_append_of_scan h
    have hb := blanks_of_splitBlank cs
    rw [hs] at hb
    have hblank : Skips (p.body ++ rest) (gap ++ p.blank) := by
      refine .append ?_ (.of_blanks _ hb)
      rw [← List.append_assoc]
      exact happ ▸ hgap
    have hspan : (Span.covering ((Position.start.after (front ++ gap)).after p.blank) p.body).Covers
        (front ++ (gap ++ p.blank)) p.body := by
      rw [← Position.after_append, List.append_assoc]
      exact Span.covers_covering _ _
    have hrest := ih (front ++ (gap ++ p.blank ++ p.body)) [] .nil
    have hcs : gap ++ cs = gap ++ p.blank ++ (p.body ++ rest) := by
      rw [← happ, Piece.text]
      simp
    cases hk : p.kind with
    | comment =>
      have hbody : Skips rest p.body := by
        rw [hk, ← hl] at hf
        exact .of_comment hf
      have := ih front (gap ++ p.text) (by
        rw [Piece.text, ← List.append_assoc]
        exact .append hblank hbody)
      rw [List.append_assoc, happ] at this
      rw [Lexed.startingAt_comment h hk]
      simpa using this
    | token k =>
      have hproper := isTokenText_of_scan h hk
      rw [hcs, Lexed.startingAt_token h hk]
      refine .token hblank (by simp [hl]) (kind_of_isTokenText hproper).1 rfl hspan (fun _ => rfl) ?_
      simpa [Piece.text] using hrest
    | fault f =>
      rw [hcs, Lexed.startingAt_fault h hk]
      refine .token hblank (by simp [hl]) (by simp) rfl hspan (fun hne => absurd rfl hne) ?_
      simpa [Piece.text] using hrest

theorem laid_ofSource (source : String) :
    Laid [] source.toList (Lexed.ofSource source).tokens (Lexed.ofSource source).stop :=
  laid_startingAt source.toList [] [] .nil

/-! ## Runs of tokens -/

/-- The place reaches from the first one of the tokens to the last one. -/
def Reaches (xs : List Token) (a : Span) : Prop :=
  ∃ first last, xs.head? = some first ∧ xs.getLast? = some last ∧ a = first.span.merge last.span

namespace Laid

variable {front cs : List Char} {xs ts : List Token} {stop : Token}

/-- The first token stands at its place behind its gap. -/
theorem head {t : Token} (h : Laid front cs (t :: ts) stop) (ht : t.kind ≠ .error) :
    ∃ rest, cs = Token.chars [t] ++ rest ∧
      t.span.Covers (front ++ t.gap.toList) t.lexeme.toList ∧
      Laid (front ++ Token.chars [t]) rest ts stop := by
  cases h with
  | @token _ gap body rest _ _ _ _ _ _ hbefore hspan hlexeme h =>
    refine ⟨rest, ?_, ?_, ?_⟩
    · simp [hbefore, hlexeme ht]
    · simpa [hbefore, hlexeme ht] using hspan
    · simpa [hbefore, hlexeme ht] using h

/-- The text behind a run of tokens. -/
theorem run (h : Laid front cs (xs ++ ts) stop) (hx : ∀ t ∈ xs, t.kind ≠ .error) :
    ∃ rest, cs = Token.chars xs ++ rest ∧ Laid (front ++ Token.chars xs) rest ts stop := by
  induction xs generalizing front cs with
  | nil => exact ⟨cs, rfl, by simpa using h⟩
  | cons t xs ih =>
    obtain ⟨rest, rfl, -, hrest⟩ := head h (hx t (by simp))
    obtain ⟨rest', rfl, hlaid⟩ := ih hrest fun u hu => hx u (by simp [hu])
    refine ⟨rest', by simp, ?_⟩
    simpa using hlaid

/-- A place that reaches over a run of tokens covers its text, without the gap in front. -/
theorem covers_run {a : Span} (h : Laid front cs (xs ++ ts) stop) (hx : ∀ t ∈ xs, t.kind ≠ .error)
    (ha : Reaches xs a) :
    ∃ gap, Token.chars xs = gap ++ Token.chars (lead "" xs) ∧
      a.Covers (front ++ gap) (Token.chars (lead "" xs)) := by
  obtain ⟨first, last, hfirst, hlast, rfl⟩ := ha
  obtain ⟨us, rfl⟩ := List.head?_eq_some_iff.1 hfirst
  obtain ⟨ys, hys⟩ := List.getLast?_eq_some_iff.1 hlast
  obtain ⟨-, -, hcovers, -⟩ := head h (hx first (by simp))
  refine ⟨first.gap.toList, by simp, ?_⟩
  -- the last token stands behind all others
  rw [hys, List.append_assoc] at h
  obtain ⟨rest, rfl, hback⟩ := run h fun t ht => hx t (hys ▸ by simp [ht])
  obtain ⟨-, -, hend, -⟩ := head hback (hx last (hys ▸ by simp))
  have hchars : first.gap.toList ++ Token.chars (lead "" (first :: us)) =
      Token.chars ys ++ (last.gap.toList ++ last.lexeme.toList) := by
    have := congrArg Token.chars hys
    simpa using this
  have hgap : byteLength first.gap.toList ≤ byteLength (Token.chars ys ++ last.gap.toList) := by
    cases ys with
    | nil =>
      obtain ⟨rfl, -⟩ := List.cons.inj hys
      simp
    | cons y ys =>
      obtain ⟨rfl, -⟩ := List.cons.inj hys
      simp
  refine hcovers.merge hend ?_ ?_ ?_
  · simp only [List.append_assoc, hchars]
  · simp
  · simp only [byteLength_append] at hgap ⊢
    omega

end Laid

/-! ## The partition of a text -/

/-- The bytes from `a` to `b` of a text are skipped text. -/
def SkipsBetween (cs : List Char) (a b : Nat) : Prop :=
  ∃ front gap rest, cs = front ++ (gap ++ rest) ∧ a = byteLength front ∧
    b = byteLength (front ++ gap) ∧ Skips rest gap

namespace Laid

variable {front cs : List Char} {ts : List Token} {stop : Token}

/-- The end of the file stands behind all text. -/
theorem stop_eq (h : Laid front cs ts stop) :
    stop.kind = .eof ∧ stop.lexeme = "" ∧ stop.span.Covers (front ++ cs) [] := by
  induction h with
  | done => exact ⟨rfl, rfl, Span.covers_point _⟩
  | token _ _ _ _ _ _ _ ih => simpa using ih

/-- Every token covers a text of its own, which is its lexeme unless it is a fault. -/
theorem covers (h : Laid front cs ts stop) : ∀ t ∈ ts, ∃ pre body post,
    front ++ cs = pre ++ (body ++ post) ∧ body ≠ [] ∧ t.kind ≠ .eof ∧ t.span.Covers pre body ∧
    (t.kind ≠ .error → t.lexeme = String.ofList body) := by
  induction h with
  | done => simp
  | @token front gap body rest t _ _ _ hbody hkind _ hspan hlexeme _ ih =>
    intro u hu
    rcases List.mem_cons.1 hu with rfl | hu
    · exact ⟨front ++ gap, body, rest, by simp, hbody, hkind, hspan, hlexeme⟩
    · simpa using ih u hu

/-- Tokens stand behind the text in front of them, one behind the other. -/
theorem ascending (h : Laid front cs ts stop) :
    (∀ t ∈ ts ++ [stop], byteLength front ≤ t.span.offset) ∧
    (ts ++ [stop]).Pairwise fun t u => t.span.stop ≤ u.span.offset := by
  induction h with
  | @done front gap =>
    have hoff := (Span.covers_point (front ++ gap)).offset
    rw [byteLength_append] at hoff
    constructor
    · intro t ht
      rw [List.mem_singleton.1 ht]
      exact hoff ▸ Nat.le_add_right _ _
    · simp
  | @token front gap body rest t stop ts _ _ _ _ hspan _ _ ih =>
    obtain ⟨hle, hpair⟩ := ih
    have hoff := hspan.offset
    have hstop := hspan.stop
    simp only [byteLength_append] at hoff hstop hle
    constructor
    · intro u hu
      rcases List.mem_cons.1 hu with rfl | hu
      · omega
      · have := hle u hu
        omega
    · refine List.Pairwise.cons ?_ hpair
      intro u hu
      have := hle u hu
      omega

/-- Between two tokens, and before the first one and behind the last one, text is skipped. -/
theorem gaps (h : Laid front cs ts stop) :
    ∀ p ∈ (byteLength front :: ts.map (·.span.stop)).zip ((ts ++ [stop]).map (·.span.offset)),
      SkipsBetween (front ++ cs) p.1 p.2 := by
  induction h with
  | @done front gap hgap =>
    have hoff := (Span.covers_point (front ++ gap)).offset
    intro p hp
    simp only [List.map_nil, List.nil_append, List.map_cons, List.zip_cons_cons, List.zip_nil_left,
      List.mem_singleton] at hp
    subst hp
    exact ⟨front, gap, [], by simp, rfl, hoff, hgap⟩
  | @token front gap body rest t stop ts hgap _ _ _ hspan _ _ ih =>
    intro p hp
    simp only [List.map_cons, List.cons_append, List.zip_cons_cons, List.mem_cons] at hp
    rcases hp with rfl | hp
    · exact ⟨front, gap, body ++ rest, rfl, rfl, hspan.offset, hgap⟩
    · have hstop := hspan.stop
      rw [List.append_assoc] at hstop
      rw [hstop] at hp
      simpa using ih p hp

end Laid

/-- What a lexed text says of the text: its tokens stand one behind the other, cover it up to
skipped text, and are told at their places. -/
structure Lexed.Partitions (r : Lexed) (source : String) : Prop where
  ascending : (r.tokens ++ [r.stop]).Pairwise fun t u => t.span.stop ≤ u.span.offset
  pos : ∀ t ∈ r.tokens, t.kind ≠ .eof ∧ 1 ≤ t.span.len
  slice : ∀ t ∈ r.tokens ++ [r.stop], t.kind ≠ .error → t.span.slice source = some t.lexeme
  /-- Before the first token, between two tokens and behind the last one, text is skipped. -/
  skips : ∀ p ∈ (0 :: r.tokens.map (·.span.stop)).zip
    ((r.tokens ++ [r.stop]).map (·.span.offset)), SkipsBetween source.toList p.1 p.2
  places : ∀ t ∈ r.tokens ++ [r.stop], t.span.LiesIn source.toList
  stop : r.stop.kind = .eof ∧ r.stop.span.offset = byteLength source.toList ∧ r.stop.span.len = 0
  errors : r.errors.map LexError.span = (r.tokens.filter (·.kind == .error)).map Token.span

theorem not_error_of_mem_pieces (cs : List Char) :
    ∀ x ∈ (pieces cs).1, x.kind ≠ .token .error := by
  induction cs using pieces.induct with
  | case1 cs h => simp [pieces_none h]
  | case2 cs p rest h ih =>
    rw [pieces_some h]
    intro x hx
    rcases List.mem_cons.1 hx with rfl | hx
    · exact fun hk => (kind_of_isTokenText (isTokenText_of_scan h hk)).2 rfl
    · exact ih x hx

namespace Lexed

/-- Tokens are not empty, and none of them is the end. -/
theorem pos_of_mem_tokens {source : String} {t : Token} (ht : t ∈ (ofSource source).tokens) :
    t.kind ≠ .eof ∧ 1 ≤ t.span.len := by
  obtain ⟨pre, body, post, -, hbody, hk, hc, -⟩ := (laid_ofSource source).covers t ht
  refine ⟨hk, ?_⟩
  rw [hc.len]
  exact Nat.one_le_iff_ne_zero.2 fun h => hbody (byteLength_eq_zero h)

/-- All tokens and the end are at places in the text. -/
theorem liesIn_ofSource (source : String) :
    ∀ t ∈ (ofSource source).tokens ++ [(ofSource source).stop],
      t.span.LiesIn source.toList := by
  have hlaid := laid_ofSource source
  obtain ⟨-, -, hstop⟩ := hlaid.stop_eq
  have hsource : source.toList = source.toList ++ ([] ++ []) := by simp
  rw [List.nil_append] at hstop
  intro t ht
  rcases List.mem_append.1 ht with ht | ht
  · obtain ⟨pre, body, post, hcs, -, -, hc, -⟩ := hlaid.covers t ht
    rw [List.nil_append] at hcs
    rw [hcs]
    exact hc.liesIn post
  · rw [List.mem_singleton.1 ht, hsource]
    exact hstop.liesIn []

/-- Errors are told at the places of tokens. -/
theorem spans_errors_ofSource (source : String) :
    (ofSource source).errors.map LexError.span =
      ((ofSource source).tokens.filter (·.kind == .error)).map Token.span :=
  map_span_errors _ _ _ _ (not_error_of_mem_pieces _)

end Lexed

/-- The lexer partitions every text. -/
theorem Lexed.partitions_ofSource (source : String) :
    (Lexed.ofSource source).Partitions source := by
  have hlaid := laid_ofSource source
  have hcovers := hlaid.covers
  obtain ⟨hkind, hlexeme, hstop⟩ := hlaid.stop_eq
  rw [List.nil_append] at hcovers hstop
  have hsource : source.toList = source.toList ++ ([] ++ []) := by simp
  refine ⟨hlaid.ascending.2, fun t ht => pos_of_mem_tokens ht, ?_, hlaid.gaps,
    liesIn_ofSource source, ⟨hkind, hstop.offset, hstop.len⟩, spans_errors_ofSource source⟩
  intro t ht hne
  rcases List.mem_append.1 ht with ht | ht
  · obtain ⟨pre, body, post, hcs, -, -, hc, hlex⟩ := hcovers t ht
    rw [Span.slice, hcs, hc.slice?, hlex hne]
    rfl
  · rw [List.mem_singleton.1 ht, Span.slice, hsource, hstop.slice?, hlexeme]
    rfl

end TemplateIdl
