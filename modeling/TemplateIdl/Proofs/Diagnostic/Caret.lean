import TemplateIdl.Proofs.Grammar.Report

/-!
# Caret — where errors are pointed at

An error is shown with its source line and a row below it, in which a caret points at the error.

* `exists_lines_append` and `lastLine_isPrefix`, the lines of a text and the place behind a front
  part of it;
* `Span.StartsIn` and `Interface.startsIn_of_parse_error`, errors do not begin at the end of a line;
* `ParseError.toList_shown`, the two rows, and `ParseError.PointsAt`, a caret that stands under the
  error;
* `Interface.pointsAt_iff_of_parse_error`, where the caret stands, which is seldom under the error;
* `Interface.not_forall_pointsAt` and `Interface.accented_pointsAt`, texts in which it is not and in
  which it is.
-/

namespace TemplateIdl

/-! ## Lines -/

/-- In front of a line there is nothing or a line feed. -/
theorem eq_lastLine_or (cs : List Char) :
    cs = lastLine cs ∨ ∃ front, cs = front ++ '\n' :: lastLine cs := by
  induction cs using List.reverseRecOn with
  | nil => exact .inl rfl
  | append_singleton cs c ih =>
    rw [lastLine_append_singleton]
    split
    · next hc =>
      subst hc
      exact .inr ⟨cs, rfl⟩
    · rcases ih with h | ⟨front, h⟩
      · exact .inl (congrArg (· ++ [c]) h)
      · refine .inr ⟨front, ?_⟩
        rw [← List.cons_append, ← List.append_assoc, ← h]

theorem not_mem_lastLine (cs : List Char) : '\n' ∉ lastLine cs := by
  intro h
  simpa using List.mem_rtakeWhile_imp h

/-- A text without line feeds is a line. -/
theorem lastLine_append_cons {front cs : List Char} (h : '\n' ∉ cs) :
    lastLine (front ++ '\n' :: cs) = cs := by
  induction cs using List.reverseRecOn with
  | nil => simp
  | append_singleton cs c ih =>
    rw [List.mem_append, not_or] at h
    have hc : c ≠ '\n' := fun hc => h.2 (by simp [hc])
    rw [← List.cons_append, ← List.append_assoc, lastLine_append_singleton, if_neg hc, ih h.1]

theorem lines_cons {c : Char} {cs : List Char} (hc : c ≠ '\n')
    (hcs : c = '\r' → cs.head? ≠ some '\n') :
    lines (c :: cs) = (c :: (lines cs).headD []) :: (lines cs).tail := by
  have hnext : ∀ ds, c = '\r' → cs = '\n' :: ds → False := by
    rintro ds hr rfl
    exact hcs hr rfl
  rw [lines.eq_4 c cs hc hnext]
  cases lines cs <;> rfl

/-- A carriage return in front of a line feed is no text. -/
theorem lines_carriageReturn {cs : List Char} (h : cs.head? = some '\n') :
    lines ('\r' :: cs) = lines cs := by
  obtain ⟨ds, rfl⟩ := List.head?_eq_some_iff.1 h
  rfl

theorem eq_nil_of_lines {cs : List Char} (h : lines cs = []) : cs = [] := by
  fun_induction lines cs with
  | case1 => rfl
  | case2 | case3 | case4 | case5 => cases h

theorem not_mem_of_mem_lines {cs line : List Char} (h : line ∈ lines cs) : '\n' ∉ line := by
  fun_induction lines cs generalizing line with
  | case1 => cases h
  | case2 cs ih =>
    rcases List.mem_cons.1 h with rfl | h
    · simp
    · exact ih h
  | case3 cs ih =>
    rcases List.mem_cons.1 h with rfl | h
    · simp
    · exact ih h
  | case4 c cs hc _ _ _ =>
    rw [List.mem_singleton.1 h, List.mem_singleton]
    exact fun he => hc he.symm
  | case5 c cs hc _ l ls hls ih =>
    rcases List.mem_cons.1 h with rfl | h
    · rw [List.mem_cons, not_or]
      exact ⟨fun he => hc he.symm, ih (hls ▸ List.mem_cons_self)⟩
    · exact ih (hls ▸ List.mem_cons_of_mem l h)

theorem not_mem_of_line? {cs line : List Char} {n : Nat} (h : line? cs n = some line) :
    '\n' ∉ line := by
  rw [line?] at h
  split at h
  · cases h
  · exact not_mem_of_mem_lines (List.mem_of_getElem? h)

/-- Each line feed ends a line. -/
theorem exists_lines_append (front : List Char) : ∃ ls : List (List Char),
    ls.length = front.count '\n' + 1 ∧ ∀ cs, lines (front ++ '\n' :: cs) = ls ++ lines cs := by
  induction front with
  | nil => exact ⟨[[]], rfl, fun cs => rfl⟩
  | cons c front ih =>
    obtain ⟨ls, hlength, hls⟩ := ih
    have hhead : ∀ cs, (front ++ '\n' :: cs).head? = (front ++ ['\n']).head? := by
      intro cs
      cases front <;> rfl
    by_cases hc : c = '\n'
    · subst hc
      refine ⟨[] :: ls, by simp [hlength], fun cs => ?_⟩
      rw [List.cons_append, lines, hls]
      rfl
    have hcount : (c :: front).count '\n' = front.count '\n' := List.count_cons_of_ne hc
    rw [hcount]
    by_cases hcr : c = '\r' ∧ (front ++ ['\n']).head? = some '\n'
    · obtain ⟨rfl, hnext⟩ := hcr
      refine ⟨ls, hlength, fun cs => ?_⟩
      rw [List.cons_append, lines_carriageReturn ((hhead cs).trans hnext), hls]
    · obtain ⟨l, ls', rfl⟩ := List.exists_cons_of_length_eq_add_one hlength
      refine ⟨(c :: l) :: ls', hlength, fun cs => ?_⟩
      have hnext : c = '\r' → (front ++ '\n' :: cs).head? ≠ some '\n' :=
        fun hr hn => hcr ⟨hr, (hhead cs).symm.trans hn⟩
      rw [List.cons_append, lines_cons hc hnext, hls]
      rfl

/-- A text without line feeds stands at the front of the first line, unless its end is a carriage
return that belongs to the end of the line. -/
theorem isPrefix_of_head_lines {cs rest line : List Char} (hcs : '\n' ∉ cs)
    (hrest : rest.head? ≠ some '\n') (h : (lines (cs ++ rest)).head? = some line) :
    cs <+: line := by
  induction cs generalizing line with
  | nil => exact List.nil_prefix
  | cons c cs ih =>
    rw [List.mem_cons, not_or] at hcs
    have hc : c ≠ '\n' := fun hc => hcs.1 hc.symm
    have hnext : c = '\r' → (cs ++ rest).head? ≠ some '\n' := by
      intro _ hn
      cases cs with
      | nil => exact hrest hn
      | cons d cs => exact hcs.2 (by simp [Option.some.inj hn])
    rw [List.cons_append, lines_cons hc hnext] at h
    cases h
    refine (List.prefix_cons_inj c).2 ?_
    cases hl : lines (cs ++ rest) with
    | nil =>
      obtain ⟨rfl, -⟩ := List.append_eq_nil_iff.1 (eq_nil_of_lines hl)
      exact List.nil_prefix
    | cons l ls => exact ih hcs.2 (by rw [hl]; rfl)

/-- What stands in the last line of a text stands at the front of that line. -/
theorem lastLine_isPrefix {front rest line : List Char} (hrest : rest.head? ≠ some '\n')
    (h : line? (front ++ rest) (front.count '\n' + 1) = some line) : lastLine front <+: line := by
  rw [line?, if_neg (Nat.succ_ne_zero _), Nat.add_sub_cancel] at h
  have hlast := not_mem_lastLine front
  rcases eq_lastLine_or front with hfront | ⟨pre, hfront⟩
  · rw [hfront, List.count_eq_zero_of_not_mem hlast, ← List.head?_eq_getElem?] at h
    exact isPrefix_of_head_lines hlast hrest h
  · obtain ⟨ls, hlength, hls⟩ := exists_lines_append pre
    have hcount : front.count '\n' = ls.length := by
      rw [hfront, hlength, List.count_append, List.count_cons_self,
        List.count_eq_zero_of_not_mem hlast]
    rw [hcount, hfront, List.append_assoc, List.cons_append, hls,
      List.getElem?_append_right (Nat.le_refl _), Nat.sub_self, ← List.head?_eq_getElem?] at h
    exact isPrefix_of_head_lines hlast hrest h

/-! ## Where errors begin -/

/-- The stretch begins in the text, and not at the end of a line. -/
def Span.StartsIn (cs : List Char) (s : Span) : Prop :=
  ∃ front rest, cs = front ++ rest ∧ s.toPosition = Position.start.after front ∧
    rest.head? ≠ some '\n'

namespace Span.StartsIn

variable {cs : List Char} {s t : Span}

theorem merge (hs : s.StartsIn cs) (ht : t.StartsIn cs) : (s.merge t).StartsIn cs := by
  unfold Span.merge
  dsimp only
  split
  · exact hs
  · exact ht

theorem of_covers {front body : List Char} (back : List Char) (h : s.Covers front body)
    (hbody : body ≠ []) (hline : body.head? ≠ some '\n') :
    s.StartsIn (front ++ (body ++ back)) := by
  refine ⟨front, body ++ back, rfl, congrArg Span.toPosition (covers_iff.1 h), ?_⟩
  rwa [List.head?_append_of_ne_nil body hbody]

end Span.StartsIn

/-- Tokens and faults begin in the text, and the end of the file does so, too. -/
theorem Lexed.startsIn_startingAt (cs front gap : List Char) :
    ∀ t ∈ (startingAt (Position.start.after front) gap cs).tokens ++
      [(startingAt (Position.start.after front) gap cs).stop], t.span.StartsIn (front ++ cs) := by
  induction cs using pieces.induct generalizing front gap with
  | case1 cs h =>
    rw [startingAt_none h, ← Position.after_append]
    intro t ht
    rw [List.mem_singleton.1 ht]
    exact ⟨front ++ cs, [], by simp, rfl, by simp⟩
  | case2 cs x rest h ih =>
    obtain ⟨c, l, r, hs, hl, -⟩ := scan_eq_some h
    have happ := Piece.text_append_of_scan h
    have hblank := not_isBlank_of_splitBlank hs
    have hspan : (Span.covering ((Position.start.after front).after x.blank) x.body).StartsIn
        (front ++ cs) := by
      rw [← Position.after_append]
      have hcovers := Span.covers_covering (front ++ x.blank) x.body
      have hne : x.body ≠ [] := by simp [hl]
      have hline : x.body.head? ≠ some '\n' := by
        rw [hl]
        rintro hc
        cases hc
        exact absurd hblank (by decide)
      have hstarts := Span.StartsIn.of_covers rest hcovers hne hline
      have hcs : front ++ cs = front ++ x.blank ++ (x.body ++ rest) := by
        rw [← happ, Piece.text]
        simp
      rwa [hcs]
    have hrest := fun gap => ih (front ++ x.text) gap
    have hcs : front ++ x.text ++ rest = front ++ cs := by rw [List.append_assoc, happ]
    rw [Position.after_append, hcs] at hrest
    cases hk : x.kind with
    | comment =>
      rw [startingAt_comment h hk]
      exact hrest _
    | token k =>
      rw [startingAt_token h hk]
      exact List.forall_mem_cons.2 ⟨hspan, hrest _⟩
    | fault f =>
      rw [startingAt_fault h hk]
      exact List.forall_mem_cons.2 ⟨hspan, hrest _⟩

theorem Interface.startsIn_of_parse_error {source : String} {es : List ParseError}
    (h : Interface.parse source = .error es) : ∀ e ∈ es, e.span.StartsIn source.toList := by
  have hhalf : ∀ t : Token, t.Stands source.toList → t.lexeme = ">" →
      t.span.StartsIn source.toList := by
    rintro t ⟨front, back, hcs, hcovers⟩ ht
    rw [hcs]
    exact .of_covers back hcovers (by simp [ht]) (by simp [ht])
  have htokens := Lexed.startsIn_startingAt source.toList [] []
  exact report_of_parse_error Span.StartsIn.merge htokens hhalf h

/-! ## The printed line and the row of the caret -/

namespace ParseError

variable (e : ParseError)

/-- What stands in front of the source line: its number and a bar. -/
def margin : List Char := gutter e.span.line ++ [' ', '|', ' ']

/-- The row below the source line. -/
def caretRow : List Char :=
  [' ', ' ', '|', ' '] ++ (List.replicate (e.span.col - 1) ' ' ++ pointer e.span.len)

theorem length_margin : e.margin.length = max 3 e.span.line.repr.length + 3 := by
  have hdigits : e.span.line.repr.toList.length = e.span.line.repr.length := String.length_toList
  simp only [margin, gutter, List.length_append, List.length_replicate, List.length_cons,
    List.length_nil, hdigits]
  omega

theorem not_mem_margin : '\n' ∉ e.margin := by
  have hdigits : '\n' ∉ Nat.toDigits 10 e.span.line := by
    intro h
    exact absurd (Nat.isDigit_of_mem_toDigits (by decide) (by decide) h) (by decide)
  simp [margin, gutter, hdigits]

theorem not_mem_caretRow : '\n' ∉ e.caretRow := by
  simp [caretRow, pointer]

theorem idxOf_caretRow : e.caretRow.idxOf '^' = e.span.col - 1 + 4 := by
  have hblank : '^' ∉ [' ', ' ', '|', ' '] ++ List.replicate (e.span.col - 1) ' ' := by simp
  rw [caretRow, ← List.append_assoc, List.idxOf_append_of_notMem hblank, pointer,
    List.idxOf_cons_self]
  simp

/-- The shown text ends with the source line behind its margin and the row of the caret. -/
theorem toList_shown {source : String} {line : List Char}
    (h : line? source.toList e.span.line = some line) : ∃ head, (e.shown source).toList =
      head ++ '\n' :: (e.margin ++ line ++ '\n' :: (e.caretRow ++ ['\n'])) := by
  let message := if e.message.isEmpty then "" else "  " ++ e.message ++ "\n"
  refine ⟨("Error at " ++ e.span.text ++ ": " ++ e.kind.text ++ "\n" ++ message ++ "  |").toList, ?_⟩
  unfold shown
  dsimp only
  rw [h]
  have hbar : "  |\n".toList = "  |".toList ++ ['\n'] := by decide
  have hmargin : " | ".toList = [' ', '|', ' '] := by decide
  have hcaret : "  | ".toList = [' ', ' ', '|', ' '] := by decide
  have hline : "\n".toList = ['\n'] := by decide
  simp only [String.toList_append, String.toList_ofList, hbar, hmargin, hcaret, hline, margin,
    caretRow, List.append_assoc, List.cons_append, List.nil_append]
  rfl

/-- The last two rows of a text. -/
theorem rows_unique {head head' xs xs' ys ys' : List Char} (hxs : '\n' ∉ xs) (hxs' : '\n' ∉ xs')
    (hys : '\n' ∉ ys) (hys' : '\n' ∉ ys') (h : head ++ '\n' :: (xs ++ '\n' :: (ys ++ ['\n'])) =
      head' ++ '\n' :: (xs' ++ '\n' :: (ys' ++ ['\n']))) : xs = xs' ∧ ys = ys' := by
  have hcut : (head ++ '\n' :: xs) ++ '\n' :: ys = (head' ++ '\n' :: xs') ++ '\n' :: ys' := by
    have hfeed : (head ++ '\n' :: xs) ++ '\n' :: ys ++ ['\n'] =
        (head' ++ '\n' :: xs') ++ '\n' :: ys' ++ ['\n'] := by simpa using h
    exact List.append_cancel_right hfeed
  have hlast : ys = ys' := by
    have := congrArg lastLine hcut
    rwa [lastLine_append_cons hys, lastLine_append_cons hys'] at this
  subst hlast
  have hfirst := congrArg lastLine (List.append_cancel_right hcut)
  rw [lastLine_append_cons hxs, lastLine_append_cons hxs'] at hfirst
  exact ⟨hfirst, rfl⟩

/-- The caret stands under the error: the shown text ends with the source line of the error behind
some margin and a row below it, in which the caret has the place that the character at the column
of the error has in the row above. -/
def PointsAt (source : String) : Prop :=
  ∃ head margin before after row : List Char,
    line? source.toList e.span.line = some (before ++ after) ∧
    e.span.col = byteLength before + 1 ∧ '\n' ∉ margin ∧ '\n' ∉ row ∧
    (e.shown source).toList =
      head ++ '\n' :: (margin ++ (before ++ after) ++ '\n' :: (row ++ ['\n'])) ∧
    row.idxOf '^' = margin.length + before.length

variable {e} in
/-- The margin is wider than that of the caret, and the caret is moved by bytes. -/
theorem pointsAt_iff {source : String} {before after : List Char}
    (hline : line? source.toList e.span.line = some (before ++ after))
    (hcol : e.span.col = byteLength before + 1) :
    e.PointsAt source ↔ byteLength before + 4 = e.margin.length + before.length := by
  have hno := not_mem_of_line? hline
  obtain ⟨head, hshown⟩ := e.toList_shown hline
  have hcaret := e.idxOf_caretRow
  rw [hcol, Nat.add_sub_cancel] at hcaret
  constructor
  · rintro ⟨head', margin, before', after', row, hline', hcol', hmargin, hrow, hshown', hidx⟩
    have hsame : before ++ after = before' ++ after' := Option.some.inj (hline.symm.trans hline')
    have hbytes : byteLength before = byteLength before' := by omega
    have hbefore : before = before' := by
      have hpre : before <+: before ++ after := List.prefix_append _ _
      have hpre' : before' <+: before ++ after := hsame ▸ List.prefix_append _ _
      have h1 := isPrefix_of_byteLength_le hpre hpre' hbytes.le
      have h2 := isPrefix_of_byteLength_le hpre' hpre hbytes.ge
      exact h1.eq_of_length_le h2.length_le
    rw [← hsame] at hshown'
    have hrows := hshown.symm.trans hshown'
    obtain ⟨hupper, rfl⟩ := rows_unique (by simp [e.not_mem_margin, hno]) (by simp [hmargin, hno])
      e.not_mem_caretRow hrow hrows
    have hwidth : e.margin = margin := List.append_cancel_right hupper
    rw [hcaret, ← hwidth, ← hbefore] at hidx
    exact hidx
  · intro hwidth
    exact ⟨head, e.margin, before, after, e.caretRow, hline, hcol, e.not_mem_margin,
      e.not_mem_caretRow, hshown, hcaret.trans hwidth⟩

end ParseError

theorem byteLength_eq_length {cs : List Char} (h : ∀ c ∈ cs, c.toNat < 128) :
    byteLength cs = cs.length := by
  induction cs with
  | nil => rfl
  | cons c cs ih =>
    have hc : c.toNat < 128 := h c List.mem_cons_self
    have hsize : c.utf8Size = 1 := by
      rw [Char.utf8Size_eq_one_iff, UInt32.le_iff_toNat_le]
      exact Nat.le_of_lt_succ hc
    rw [byteLength_cons, hsize, ih fun d hd => h d (List.mem_cons_of_mem c hd), List.length_cons,
      Nat.add_comm]

namespace Interface

/-- The errors of a text. -/
def errors (source : String) : List ParseError :=
  match parse source with
  | .ok _ => []
  | .error es => es

theorem parse_of_errors {source : String} {e : ParseError} {es : List ParseError}
    (h : errors source = e :: es) : parse source = .error (e :: es) := by
  unfold errors at h
  split at h
  · cases h
  · next hparse => rw [hparse, h]

/-- **Where the caret stands.** The column of every error lies in its source line, which is printed
behind a margin of at least six characters. The caret below it stands behind a margin of four and
as many blanks as there are bytes in front of the error. So it stands under the error only where
these bytes are more than the characters by as much as the margins differ, and below ASCII text
never: there it stands two characters too far in front, for line numbers of up to three digits. -/
theorem pointsAt_iff_of_parse_error {source : String} {es : List ParseError}
    (h : parse source = .error es) : ∀ e ∈ es, ∀ line,
      line? source.toList e.span.line = some line →
      ∃ head before after, line = before ++ after ∧ e.span.col = byteLength before + 1 ∧
        (e.shown source).toList =
          head ++ '\n' :: (e.margin ++ line ++ '\n' :: (e.caretRow ++ ['\n'])) ∧
        e.margin.length = max 3 e.span.line.repr.length + 3 ∧
        e.caretRow.idxOf '^' = byteLength before + 4 ∧
        (e.PointsAt source ↔
          byteLength before + 1 = before.length + max 3 e.span.line.repr.length) ∧
        ((∀ c ∈ before, c.toNat < 128) → ¬ e.PointsAt source ∧ (e.span.line < 1000 →
          e.caretRow.idxOf '^' + 2 = e.margin.length + before.length)) := by
  intro e he line hline
  obtain ⟨front, rest, hcs, hposition, hrest⟩ := startsIn_of_parse_error h e he
  rw [Position.start_after] at hposition
  have hnumber : e.span.line = front.count '\n' + 1 := congrArg Position.line hposition
  have hcol : e.span.col = byteLength (lastLine front) + 1 := congrArg Position.col hposition
  obtain ⟨after, rfl⟩ := lastLine_isPrefix hrest (hcs ▸ hnumber ▸ hline)
  obtain ⟨head, hshown⟩ := e.toList_shown hline
  have hmargin := e.length_margin
  have hcaret := e.idxOf_caretRow
  rw [hcol, Nat.add_sub_cancel] at hcaret
  have hiff := ParseError.pointsAt_iff hline hcol
  refine ⟨head, lastLine front, after, rfl, hcol, hshown, hmargin, hcaret, ?_, ?_⟩
  · rw [hiff]
    omega
  · intro hascii
    have hbytes := byteLength_eq_length hascii
    refine ⟨?_, ?_⟩
    · rw [hiff]
      omega
    · intro hsmall
      have hdigits : e.span.line.repr.length ≤ 3 := by
        rw [← String.length_toList, Nat.toList_repr]
        exact (Nat.length_toDigits_le_iff (by decide) (by decide)).2 hsmall
      omega

/-- A file with a number in the place of a name. -/
def numbered : String := "int 1;"

/-- The error at the number. -/
def numberedError : ParseError :=
  ⟨.expectedIdentifier, ⟨⟨4, 1, 5⟩, 1⟩, "expected identifier, found 1"⟩

theorem parse_numbered : parse numbered = .error [numberedError] :=
  parse_of_errors (by decide +kernel)

/-- Below the number, which is the eleventh character of its printed line, the caret is the ninth
character. -/
theorem numbered_pointsAt :
    ∃ head before after, numbered.toList = before ++ after ∧
      (numberedError.shown numbered).toList = head ++ '\n' ::
        (numberedError.margin ++ numbered.toList ++ '\n' :: (numberedError.caretRow ++ ['\n'])) ∧
      numberedError.caretRow.idxOf '^' = 8 ∧ numberedError.margin.length + before.length = 10 ∧
      ¬ numberedError.PointsAt numbered := by
  have hline : line? numbered.toList 1 = some numbered.toList := by decide +kernel
  have hascii : (numbered.toList.all fun c => decide (c.toNat < 128)) = true := by decide +kernel
  obtain ⟨head, before, after, hbefore, -, hshown, -, -, -, hnot⟩ :=
    pointsAt_iff_of_parse_error parse_numbered numberedError List.mem_cons_self _ hline
  have hfront : ∀ c ∈ before, c.toNat < 128 := by
    intro c hc
    have hmem : c ∈ numbered.toList := hbefore ▸ List.mem_append_left after hc
    exact of_decide_eq_true (List.all_eq_true.1 hascii c hmem)
  obtain ⟨hno, hplace⟩ := hnot hfront
  have hcaret : numberedError.caretRow.idxOf '^' = 8 := by decide +kernel
  have hoff := hplace (by decide)
  exact ⟨head, before, after, hbefore, hshown, hcaret, by omega, hno⟩

/-- The margin of the caret row is as wide as that of the empty row above, but not as that of the
printed line. -/
theorem not_forall_pointsAt : ¬ ∀ (source : String) (es : List ParseError),
    parse source = .error es → ∀ e ∈ es, ∀ line, line? source.toList e.span.line = some line →
      (∀ c ∈ line.take e.span.col, c.toNat < 128 ∧ c ≠ '\t') → e.span.line < 1000 →
        e.PointsAt source := by
  intro hall
  have hline : line? numbered.toList 1 = some (['i', 'n', 't', ' '] ++ ['1', ';']) := by
    decide +kernel
  have hascii : ((['i', 'n', 't', ' '] ++ ['1', ';']).all fun c =>
      decide (c.toNat < 128 ∧ c ≠ '\t')) = true := by decide
  have hpoints := hall numbered _ parse_numbered numberedError List.mem_cons_self _ hline
    (fun c hc => of_decide_eq_true (List.all_eq_true.1 hascii c (List.mem_of_mem_take hc)))
    (by decide)
  rw [ParseError.pointsAt_iff hline rfl] at hpoints
  revert hpoints
  decide +kernel

/-- A file with two letters of two bytes each in front of an error. -/
def accented : String := "/*éé*/ 1"

/-- The error behind the comment. -/
def accentedError : ParseError :=
  ⟨.expectedDeclaration, ⟨⟨9, 1, 10⟩, 1⟩, "expected declaration, found 1"⟩

/-- The two letters make up for the margins, so the caret can stand under an error. -/
theorem accented_pointsAt :
    parse accented = .error [accentedError] ∧ accentedError.PointsAt accented := by
  have hline : line? accented.toList 1 =
      some (['/', '*', 'é', 'é', '*', '/', ' '] ++ ['1']) := by decide +kernel
  exact ⟨parse_of_errors (by decide +kernel),
    (ParseError.pointsAt_iff hline rfl).2 (by decide +kernel)⟩

end Interface

end TemplateIdl
