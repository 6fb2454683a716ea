import TemplateIdl.Proofs.Text.Place
import TemplateIdl.Proofs.Token.Legible

/-!
# Concat — the tokens of two texts one behind the other

* `Position.shift`, `Span.shift` and `Token.shift`, places further on in a text;
* `Lexed.startingAt_shift` and `Lexed.startingAt_gap`, the same text at another place and behind
  another gap;
* `Lexed.startingAt_append`, a text in front of another one that begins in a line of its own, and
  `Lexed.ofSource_append`, what follows for whole texts.
-/

namespace TemplateIdl

/-! ## Places further on -/

section Shift

variable (bytes lines : Nat)

/-- The place so many bytes and lines further on, in the same column. -/
def Position.shift (p : Position) : Position := ⟨p.offset + bytes, p.line + lines, p.col⟩

/-- The stretch so many bytes and lines further on, in the same columns. -/
def Span.shift (s : Span) : Span := ⟨s.toPosition.shift bytes lines, s.len⟩

/-- The token so many bytes and lines further on, in the same columns. -/
def Token.shift (t : Token) : Token := { t with span := t.span.shift bytes lines }

/-- The tokens of a text so many bytes and lines further on. -/
def Lexed.shift (r : Lexed) : Lexed where
  tokens := r.tokens.map (Token.shift bytes lines)
  errors := r.errors.map fun e => { e with span := e.span.shift bytes lines }
  stop := r.stop.shift bytes lines

theorem Position.after_shift (p : Position) (cs : List Char) :
    (p.shift bytes lines).after cs = (p.after cs).shift bytes lines := by
  induction cs generalizing p with
  | nil => rfl
  | cons c cs ih =>
    have hnext : (p.shift bytes lines).next c = (p.next c).shift bytes lines := by
      by_cases hc : c = '\n'
      · simp only [next, if_pos hc, shift, Nat.add_right_comm]
      · simp only [next, if_neg hc, shift, Nat.add_right_comm]
    rw [after_cons, after_cons, hnext, ih]

theorem Span.shift_merge (s t : Span) :
    (s.merge t).shift bytes lines = (s.shift bytes lines).merge (t.shift bytes lines) := by
  have hle : (s.shift bytes lines).offset ≤ (t.shift bytes lines).offset ↔ s.offset ≤ t.offset :=
    Nat.add_le_add_iff_right
  have hstop : ∀ u : Span, (u.shift bytes lines).stop = u.stop + bytes := by
    intro u
    simp only [stop, shift, Position.shift]
    omega
  unfold merge
  dsimp only
  rw [hstop, hstop, Nat.add_max_add_right]
  by_cases h : s.offset ≤ t.offset
  · rw [if_pos h, if_pos (hle.2 h)]
    simp only [shift, Position.shift, Span.mk.injEq, true_and]
    omega
  · rw [if_neg h, if_neg fun h' => h (hle.1 h')]
    simp only [shift, Position.shift, Span.mk.injEq, true_and]
    omega

end Shift

/-- Behind a text and the end of its last line. -/
theorem Position.start_after_line (cs : List Char) :
    Position.start.after (cs ++ ['\n']) =
      Position.start.shift (byteLength cs + 1) (cs.count '\n' + 1) := by
  rw [start_after, lastLine_append_singleton, if_pos rfl]
  simp [start, shift, List.count_append, show Char.utf8Size '\n' = 1 from rfl, Nat.add_comm]

/-! ## The same text somewhere else -/

namespace Lexed

theorem map_shift_lead (bytes lines : Nat) (g : String) (ts : List Token) :
    (lead g ts).map (Token.shift bytes lines) = lead g (ts.map (Token.shift bytes lines)) := by
  cases ts <;> rfl

theorem startingAt_shift (bytes lines : Nat) (p : Position) (gap cs : List Char) :
    startingAt (p.shift bytes lines) gap cs = (startingAt p gap cs).shift bytes lines := by
  induction cs using pieces.induct generalizing p gap with
  | case1 cs h =>
    rw [startingAt_none h, startingAt_none h, Position.after_shift]
    rfl
  | case2 cs x rest h ih =>
    rcases hk : x.kind with _ | k | f
    · rw [startingAt_comment h hk, startingAt_comment h hk, Position.after_shift, ih]
    · rw [startingAt_token h hk, startingAt_token h hk]
      simp only [Position.after_shift, ih]
      rfl
    · rw [startingAt_fault h hk, startingAt_fault h hk]
      simp only [Position.after_shift, ih]
      rfl

theorem startingAt_gap (p : Position) (gap gap' cs : List Char) :
    ∃ g, (startingAt p gap' cs).tokens = lead g (startingAt p gap cs).tokens ∧
      (startingAt p gap' cs).errors = (startingAt p gap cs).errors := by
  induction cs using pieces.induct generalizing p gap gap' with
  | case1 cs h =>
    rw [startingAt_none h, startingAt_none h]
    exact ⟨"", rfl, rfl⟩
  | case2 cs x rest h ih =>
    rcases hk : x.kind with _ | k | f
    · rw [startingAt_comment h hk, startingAt_comment h hk]
      exact ih _ _ _
    · rw [startingAt_token h hk, startingAt_token h hk]
      exact ⟨_, rfl, rfl⟩
    · rw [startingAt_fault h hk, startingAt_fault h hk]
      exact ⟨_, rfl, rfl⟩

end Lexed

/-! ## Two texts -/

/-- Blanks go on behind blanks, but for a byte order mark, which only the first one may be. -/
theorem splitBlank_append_line {cs ds : List Char} (hcs : Piece.scan cs = none)
    (hds : ds.head? ≠ some '\uFEFF') :
    splitBlank (cs ++ '\n' :: ds) = (cs ++ '\n' :: (splitBlank ds).1, (splitBlank ds).2) := by
  have hnone : (splitBlank cs).2 = [] := by rw [splitBlank_of_scan hcs]
  have hline : isBlank '\n' = true := by decide
  have hsplit : splitBlank ds = (ds.takeWhile isBlank, ds.dropWhile isBlank) := by
    cases ds with
    | nil => rfl
    | cons d ds => exact if_neg fun hd => hds (by rw [hd]; rfl)
  have hblank : ∀ bs : List Char, bs.dropWhile isBlank = [] →
      (bs ++ '\n' :: ds).takeWhile isBlank = bs ++ '\n' :: ds.takeWhile isBlank ∧
        (bs ++ '\n' :: ds).dropWhile isBlank = ds.dropWhile isBlank := by
    intro bs hbs
    have hall := List.dropWhile_eq_nil_iff.1 hbs
    constructor
    · rw [List.takeWhile_append_of_pos hall, List.takeWhile_cons_of_pos hline]
    · rw [List.dropWhile_append_of_pos hall, List.dropWhile_cons_of_pos hline]
  rw [hsplit]
  cases cs with
  | nil =>
    obtain ⟨h1, h2⟩ := hblank [] rfl
    rw [List.nil_append] at h1 h2 ⊢
    rw [splitBlank, if_neg (by decide), h1, h2]
  | cons c cs =>
    rw [List.cons_append, splitBlank]
    rw [splitBlank] at hnone
    split at hnone
    · next hc =>
      obtain ⟨h1, h2⟩ := hblank cs hnone
      rw [if_pos hc, h1, h2]
      rfl
    · next hc =>
      obtain ⟨h1, h2⟩ := hblank (c :: cs) hnone
      rw [List.cons_append] at h1 h2
      rw [if_neg hc, h1, h2]

namespace Lexed

/-- Blanks in front of a text stand in the gap before its first token. -/
theorem startingAt_blank {bs cs : List Char}
    (h : splitBlank (bs ++ cs) = (bs ++ (splitBlank cs).1, (splitBlank cs).2)) (p : Position)
    (gap : List Char) : startingAt p gap (bs ++ cs) = startingAt (p.after bs) (gap ++ bs) cs := by
  rcases hs : Piece.scan cs with _ | ⟨x, rest⟩
  · have hs' : Piece.scan (bs ++ cs) = none := by rw [Piece.scan, h, splitBlank_of_scan hs]
    rw [startingAt_none hs, startingAt_none hs', Position.after_append, List.append_assoc]
  · have hs' : Piece.scan (bs ++ cs) = some ({ x with blank := bs ++ x.blank }, rest) := by
      unfold Piece.scan at hs ⊢
      rw [h]
      split at hs
      · cases hs
      · next hcs =>
        rw [hcs]
        cases hs
        rfl
    rcases hk : x.kind with _ | k | f
    · rw [startingAt_comment hs hk, startingAt_comment hs' hk]
      simp [Piece.text]
    · rw [startingAt_token hs hk, startingAt_token hs' hk]
      simp [Piece.text]
    · rw [startingAt_fault hs hk, startingAt_fault hs' hk]
      simp [Piece.text]

/-- A text without faults in front of another one that begins in a line of its own. -/
theorem startingAt_append {cs ds : List Char} (hds : ds.head? ≠ some '\uFEFF') (p : Position)
    (gap : List Char) (h : (startingAt p gap cs).errors = []) :
    startingAt p gap (cs ++ '\n' :: ds) =
      let r := startingAt p gap cs
      let r' := startingAt (p.after (cs ++ ['\n'])) (r.stop.gap.toList ++ ['\n']) ds
      { r' with tokens := r.tokens ++ r'.tokens } := by
  induction cs using pieces.induct generalizing p gap with
  | case1 cs hs =>
    have hblank := splitBlank_append_line hs hds
    have hsplit : cs ++ '\n' :: ds = (cs ++ ['\n']) ++ ds := by simp
    rw [startingAt_none hs, hsplit, startingAt_blank (by rw [← hsplit, hblank]; simp)]
    simp
  | case2 cs x rest hs ih =>
    have htext := Piece.text_append_of_scan hs
    have hsplit : cs ++ '\n' :: ds = x.text ++ (rest ++ '\n' :: ds) := by rw [← htext]; simp
    have hafter : p.after (cs ++ ['\n']) = (p.after x.text).after (rest ++ ['\n']) := by
      rw [← Position.after_append, ← htext, List.append_assoc]
    rcases hk : x.kind with _ | k | f
    · have hs' : Piece.scan (x.text ++ (rest ++ '\n' :: ds)) = some (x, rest ++ '\n' :: ds) := by
        refine scan_comment_cut hs hk ?_
        cases rest with
        | nil => exact .inr rfl
        | cons c rest => exact .inl rfl
      rw [startingAt_comment hs hk] at h ⊢
      rw [hsplit, startingAt_comment hs' hk, ih _ _ h, hafter]
    · have hs' : Piece.scan (x.text ++ (rest ++ '\n' :: ds)) = some (x, rest ++ '\n' :: ds) := by
        refine scan_token_cut hs hk ?_
        have hline : Bite.Cut (Bite.glued x.body) [] ('\n' :: ds) := by
          refine .stop fun c hc => Bite.glued_of_isBreak ?_ _
          obtain rfl := Option.some.inj hc
          decide
        have := hline.append rest
        rwa [List.append_nil] at this
      rw [startingAt_token hs hk] at h ⊢
      rw [hsplit, startingAt_token hs' hk, ih _ _ h, hafter]
      rfl
    · rw [startingAt_fault hs hk] at h
      cases h

/-- The tokens of a text without faults and those of another one that stands in the lines behind
it. -/
theorem ofSource_append {source more : String} (h : (ofSource source).errors = [])
    (hmore : more.toList.head? ≠ some '\uFEFF') :
    ∃ g, (ofSource (source ++ "\n" ++ more)).tokens = (ofSource source).tokens ++
        lead g ((ofSource more).tokens.map
          (Token.shift (byteLength source.toList + 1) (source.toList.count '\n' + 1))) ∧
      ((ofSource (source ++ "\n" ++ more)).errors = [] ↔ (ofSource more).errors = []) := by
  have happend := startingAt_append hmore .start [] h
  dsimp only at happend
  rw [Position.start_after_line, startingAt_shift] at happend
  obtain ⟨g, htokens, herrors⟩ := startingAt_gap .start []
    ((startingAt .start [] source.toList).stop.gap.toList ++ ['\n']) more.toList
  have hsource : (source ++ "\n" ++ more).toList = source.toList ++ '\n' :: more.toList := by simp
  have hjoined : ofSource (source ++ "\n" ++ more) =
      startingAt .start [] (source.toList ++ '\n' :: more.toList) := by rw [← hsource]; rfl
  rw [hjoined, happend]
  refine ⟨g, congrArg ((ofSource source).tokens ++ ·) ?_, ?_⟩
  · rw [shift, htokens, map_shift_lead]
    rfl
  · rw [shift, herrors]
    exact List.map_eq_nil_iff

end Lexed

end TemplateIdl
