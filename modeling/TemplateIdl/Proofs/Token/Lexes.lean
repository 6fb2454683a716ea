import TemplateIdl.Proofs.Token.Bite
import TemplateIdl.Token.Lexed

/-!
# Lexes — texts and their tokens

A text without faults as a relation to its tokens, which leaves the places of the tokens aside.

* `Lexed.startingAt`, the tokens of a text that stands somewhere behind a gap, with its equations
  piece by piece;
* `Lexes`, the relation, and `lexes_iff_ofSource`, what it says of the lexer;
* `LexesFrom.cut`, a run of tokens and the text that it is read from: the run is read from the
  same text in front of any other one that begins with a harmless character;
* `Lexes.cons`, one token in front of a text.
-/

namespace TemplateIdl

/-- A token without its place. -/
def Token.bare (t : Token) : Token := { t with span := default }

theorem Token.bare_eq_iff {t u : Token} :
    t.bare = u.bare ↔ t.kind = u.kind ∧ t.lexeme = u.lexeme ∧ t.gap = u.gap := by
  simp [bare]

/-- Behind the blanks and comments `gap`, the text is cut into tokens with nothing between them
but blanks and comments. The tokens have no places. -/
inductive LexesFrom : List Char → List Char → List Token → Prop
  | done {gap cs : List Char} (h : Piece.scan cs = none) : LexesFrom gap cs []
  | comment {gap cs rest : List Char} {p : Piece} {ts : List Token}
      (h : Piece.scan cs = some (p, rest)) (hk : p.kind = .comment)
      (hr : LexesFrom (gap ++ p.text) rest ts) : LexesFrom gap cs ts
  | token {gap cs rest : List Char} {p : Piece} {k : Kind} {ts : List Token}
      (h : Piece.scan cs = some (p, rest)) (hk : p.kind = .token k) (hr : LexesFrom [] rest ts) :
      LexesFrom gap cs
        (⟨k, String.ofList p.body, String.ofList (gap ++ p.blank), default⟩ :: ts)

/-- The text is cut into the tokens. -/
def Lexes (cs : List Char) (ts : List Token) : Prop := LexesFrom [] cs ts

/-! ## The lexer -/

theorem pieces_none {cs : List Char} (h : Piece.scan cs = none) : pieces cs = ([], cs) := by
  unfold pieces
  split
  · rfl
  · next hs => rw [h] at hs; cases hs

theorem pieces_some {cs rest : List Char} {p : Piece} (h : Piece.scan cs = some (p, rest)) :
    pieces cs = (p :: (pieces rest).1, (pieces rest).2) := by
  rw [pieces]
  split
  · next hs => rw [h] at hs; cases hs
  · next hs => rw [h] at hs; cases hs; rfl

/-- Where there is no piece, all is blank. -/
theorem splitBlank_of_scan {cs : List Char} (h : Piece.scan cs = none) :
    splitBlank cs = (cs, []) := by
  have happ := splitBlank_append cs
  unfold Piece.scan at h
  split at h
  · next hs =>
    rw [hs, List.append_nil] at happ
    rw [hs, ← happ]
  · cases h

/-! ## A text somewhere in another one -/

namespace Lexed

/-- The tokens of a text that begins at `p`, where `gap` stands between it and the token before. -/
def startingAt (p : Position) (gap cs : List Char) : Lexed :=
  ofPieces (pieces cs).2 p gap (pieces cs).1

section Equations

variable {p : Position} {gap cs rest : List Char} {x : Piece}

theorem startingAt_none (h : Piece.scan cs = none) :
    startingAt p gap cs = ⟨[], [], ⟨.eof, "", String.ofList (gap ++ cs), .point (p.after cs)⟩⟩ := by
  rw [startingAt, pieces_none h, ofPieces]

theorem startingAt_comment (h : Piece.scan cs = some (x, rest)) (hk : x.kind = .comment) :
    startingAt p gap cs = startingAt (p.after x.text) (gap ++ x.text) rest := by
  rw [startingAt, pieces_some h, ofPieces, hk]
  simp only [Piece.text, Position.after_append]
  rfl

theorem startingAt_token {k : Kind} (h : Piece.scan cs = some (x, rest)) (hk : x.kind = .token k) :
    startingAt p gap cs =
      let r := startingAt (p.after x.text) [] rest
      { r with
        tokens := ⟨k, String.ofList x.body, String.ofList (gap ++ x.blank),
          .covering (p.after x.blank) x.body⟩ :: r.tokens } := by
  rw [startingAt, pieces_some h, ofPieces, hk]
  simp only [Piece.text, Position.after_append]
  rfl

theorem startingAt_fault {f : LexFault} (h : Piece.scan cs = some (x, rest))
    (hk : x.kind = .fault f) :
    startingAt p gap cs =
      let r := startingAt (p.after x.text) [] rest
      let span := Span.covering (p.after x.blank) x.body
      { r with
        tokens := ⟨.error, "", String.ofList (gap ++ x.blank), span⟩ :: r.tokens
        errors := ⟨f, span⟩ :: r.errors } := by
  rw [startingAt, pieces_some h, ofPieces, hk]
  simp only [Piece.text, Position.after_append]
  rfl

end Equations

end Lexed

theorem lexesFrom_iff (cs : List Char) (pos : Position) (gap : List Char) (ts : List Token) :
    LexesFrom gap cs ts ↔
      (Lexed.startingAt pos gap cs).errors = [] ∧
      (Lexed.startingAt pos gap cs).tokens.map Token.bare = ts := by
  -- along the pieces of the text: a comment moves to the gap, a token is put out, and a fault is an
  -- error, for which the relation has no constructor
  induction cs using pieces.induct generalizing pos gap ts with
  | case1 cs h =>
    rw [Lexed.startingAt_none h]
    constructor
    · rintro (_ | h' | h')
      · exact ⟨rfl, rfl⟩
      · rw [h] at h'; cases h'
      · rw [h] at h'; cases h'
    · rintro ⟨-, rfl⟩
      exact .done h
  | case2 cs p rest h ih =>
    cases hk : p.kind with
    | comment =>
      rw [Lexed.startingAt_comment h hk, ← ih]
      constructor
      · rintro (h' | ⟨h', -, hr⟩ | ⟨h', hk', -⟩)
        · rw [h] at h'; cases h'
        · rw [h] at h'; cases h'; exact hr
        · rw [h] at h'; cases h'; rw [hk] at hk'; cases hk'
      · exact .comment h hk
    | token k =>
      rw [Lexed.startingAt_token h hk]
      constructor
      · rintro (h' | ⟨h', hk', -⟩ | ⟨h', hk', hr⟩)
        · rw [h] at h'; cases h'
        · rw [h] at h'; cases h'; rw [hk] at hk'; cases hk'
        · rw [h] at h'; cases h'; rw [hk] at hk'; cases hk'
          obtain ⟨he, ht⟩ := (ih _ _ _).1 hr
          exact ⟨he, by rw [List.map_cons, ht]; rfl⟩
      · rintro ⟨he, rfl⟩
        exact .token h hk ((ih _ _ _).2 ⟨he, rfl⟩)
    | fault f =>
      rw [Lexed.startingAt_fault h hk]
      constructor
      · rintro (h' | ⟨h', hk', -⟩ | ⟨h', hk', -⟩)
        · rw [h] at h'; cases h'
        · rw [h] at h'; cases h'; rw [hk] at hk'; cases hk'
        · rw [h] at h'; cases h'; rw [hk] at hk'; cases hk'
      · rintro ⟨he, -⟩
        cases he

theorem lexes_iff_ofSource (source : String) (ts : List Token) :
    Lexes source.toList ts ↔
      (Lexed.ofSource source).errors = [] ∧
      (Lexed.ofSource source).tokens.map Token.bare = ts :=
  lexesFrom_iff source.toList .start [] ts

/-! ## Pieces in front of another text -/

theorem not_isBlank_of_splitBlank {cs b r : List Char} {c : Char}
    (h : splitBlank cs = (b, c :: r)) : isBlank c = false := by
  have hd : ∀ ds : List Char, ds.dropWhile isBlank = c :: r → isBlank c = false := by
    intro ds hds
    exact Bite.head_dropWhile ds c (by rw [hds]; simp)
  cases cs with
  | nil => cases h
  | cons d ds =>
    rw [splitBlank] at h
    split at h
    · exact hd _ (Prod.mk.inj h).2
    · exact hd _ (Prod.mk.inj h).2

theorem splitBlank_cut {cs b r : List Char} {c : Char} (h : splitBlank cs = (b, c :: r))
    (r' : List Char) : splitBlank (b ++ c :: r') = (b, c :: r') := by
  have hc := not_isBlank_of_splitBlank h
  have hstop : ∀ ds : List Char, (ds.takeWhile isBlank ++ c :: r').takeWhile isBlank =
      ds.takeWhile isBlank ∧ (ds.takeWhile isBlank ++ c :: r').dropWhile isBlank = c :: r' :=
    fun ds => Bite.takeWhile_eq_of (Bite.all_takeWhile ds) (by simpa using hc)
  cases cs with
  | nil => cases h
  | cons d ds =>
    rw [splitBlank] at h
    split at h
    · next hd =>
      obtain ⟨rfl, -⟩ := Prod.mk.inj h
      obtain ⟨h1, h2⟩ := hstop ds
      rw [List.cons_append, splitBlank, if_pos hd, h1, h2]
    · next hd =>
      obtain ⟨rfl, hr⟩ := Prod.mk.inj h
      obtain ⟨h1, h2⟩ := hstop (d :: ds)
      -- the first character is a blank or already the one that ends the blanks
      by_cases hb : isBlank d = true
      · rw [List.takeWhile_cons_of_pos hb, List.cons_append] at h1 h2 ⊢
        rw [splitBlank, if_neg hd, h1, h2]
      · rw [List.dropWhile_cons_of_neg hb] at hr
        obtain ⟨rfl, -⟩ := List.cons.inj hr
        rw [List.takeWhile_cons_of_neg hb, List.nil_append] at h1 h2 ⊢
        rw [splitBlank, if_neg hd, h1, h2]

/-- The piece that a scan finds, taken apart. -/
theorem scan_eq_some {cs rest : List Char} {p : Piece} (h : Piece.scan cs = some (p, rest)) :
    ∃ c l r, splitBlank cs = (p.blank, c :: r) ∧ p.body = c :: l ∧
      Bite.first c r = ⟨p.kind, c :: l, rest⟩ := by
  unfold Piece.scan at h
  split at h
  · cases h
  · next b c r hs =>
    have hsplit := Bite.first_splits c r
    cases h
    obtain ⟨d, l, hl⟩ := List.exists_cons_of_ne_nil hsplit.ne_nil
    have happ := hsplit.append
    rw [hl] at happ
    obtain ⟨rfl, -⟩ := List.cons.inj happ
    refine ⟨d, l, r, hs, hl, ?_⟩
    rw [← hl]

theorem scan_of_first {b l r r' : List Char} {c : Char} {k : PieceKind} {cs : List Char}
    (hs : splitBlank cs = (b, c :: r)) (hf : Bite.first c (l ++ r') = ⟨k, c :: l, r'⟩) :
    Piece.scan (b ++ (c :: (l ++ r'))) = some (⟨b, c :: l, k⟩, r') := by
  rw [Piece.scan, splitBlank_cut hs]
  simp only [hf]

theorem scan_token_cut {cs rest r' : List Char} {p : Piece} {k : Kind}
    (h : Piece.scan cs = some (p, rest)) (hk : p.kind = .token k)
    (hr : Bite.Cut (Bite.glued p.body) rest r') : Piece.scan (p.text ++ r') = some (p, r') := by
  obtain ⟨c, l, r, hs, hl, hf⟩ := scan_eq_some h
  rw [hl] at hr
  rw [hk] at hf
  have := scan_of_first hs (Bite.first_cut hf hr)
  rw [← hk, ← hl] at this
  rw [Piece.text, hl, List.append_assoc, List.cons_append]
  exact this

theorem scan_comment_cut {cs rest r' : List Char} {p : Piece}
    (h : Piece.scan cs = some (p, rest)) (hk : p.kind = .comment)
    (hr : r'.head? = rest.head? ∨ r'.head? = some '\n') :
    Piece.scan (p.text ++ r') = some (p, r') := by
  obtain ⟨c, l, r, hs, hl, hf⟩ := scan_eq_some h
  rw [hk] at hf
  have := scan_of_first hs (Bite.first_comment_cut hf hr)
  rw [← hk, ← hl] at this
  rw [Piece.text, hl, List.append_assoc, List.cons_append]
  exact this

/-! ## Runs of tokens -/

/-- The text of several tokens with the gaps in front of them. -/
def Token.chars (ts : List Token) : List Char :=
  ts.flatMap fun t => t.gap.toList ++ t.lexeme.toList

@[simp] theorem Token.chars_nil : Token.chars [] = [] := rfl

@[simp] theorem Token.chars_cons (t : Token) (ts : List Token) :
    Token.chars (t :: ts) = t.gap.toList ++ (t.lexeme.toList ++ Token.chars ts) := by
  simp [chars]

@[simp] theorem Token.chars_append (ts us : List Token) :
    Token.chars (ts ++ us) = Token.chars ts ++ Token.chars us := by
  simp [chars]

/-- A text begins with no character that a token could go on with. -/
def Breaks (cs : List Char) : Prop := ∀ d ∈ cs.head?, Bite.isBreak d = true

/-- The text of a run of tokens, from which the same run is read in front of any text that
begins with a break. -/
theorem LexesFrom.cut {gap cs : List Char} {ds ts : List Token} (h : LexesFrom gap cs (ds ++ ts))
    (hd : ds ≠ []) :
    ∃ z q, z ≠ [] ∧ cs = z ++ q ∧ gap ++ z = Token.chars ds ∧ LexesFrom [] q ts ∧
      ∀ q' us, Breaks q' → LexesFrom [] q' us → LexesFrom gap (z ++ q') (ds ++ us) := by
  -- the run `ds` loses its first token where the text loses its first piece
  generalize he : ds ++ ts = all at h
  induction h generalizing ds with
  | done h => simp [hd] at he
  | @comment gap cs rest p _ hscan hk hr ih =>
    obtain ⟨z, q, hz, rfl, hchars, hq, hread⟩ := ih hd he
    have happ := Piece.text_append_of_scan hscan
    refine ⟨p.text ++ z, q, by simp [hz], by simp [happ], by simpa using hchars, hq, ?_⟩
    intro q' us hb hl
    obtain ⟨c, z', rfl⟩ := List.exists_cons_of_ne_nil hz
    rw [List.append_assoc]
    exact .comment (scan_comment_cut hscan hk (.inl (by simp))) hk (hread q' us hb hl)
  | @token gap cs rest p k us' hscan hk hr ih =>
    obtain ⟨d, ds, rfl⟩ := List.exists_cons_of_ne_nil hd
    obtain ⟨rfl, rfl⟩ := List.cons.inj he
    have happ := Piece.text_append_of_scan hscan
    have hbody := Piece.body_ne_nil_of_scan hscan
    have htext : p.text ≠ [] := by simp [Piece.text, hbody]
    cases ds with
    | nil =>
      -- behind the last token of the run anything with a break in front may stand
      refine ⟨p.text, rest, htext, happ.symm, by simp [Piece.text], hr, ?_⟩
      intro q' us hb hl
      have hcut : Bite.Cut (Bite.glued p.body) rest q' :=
        .stop fun c hc => Bite.glued_of_isBreak (hb c hc) _
      exact .token (scan_token_cut hscan hk hcut) hk hl
    | cons e ds =>
      obtain ⟨z, q, hz, rfl, hchars, hq, hread⟩ := ih (by simp) rfl
      refine ⟨p.text ++ z, q, by simp [hz], by simp [happ], ?_, hq, ?_⟩
      · rw [List.nil_append] at hchars
        rw [Token.chars_cons, ← hchars]
        simp [Piece.text]
      · intro q' us hb hl
        -- the text of the other tokens stays where it is
        have hcut : Bite.Cut (Bite.glued p.body) (z ++ q) (z ++ q') :=
          Bite.Cut.append (.stop fun c hc => Bite.glued_of_isBreak (hb c hc) _) z
        rw [List.append_assoc]
        exact .token (scan_token_cut hscan hk hcut) hk (hread q' us hb hl)

end TemplateIdl
