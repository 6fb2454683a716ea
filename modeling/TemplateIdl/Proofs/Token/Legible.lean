import TemplateIdl.Grammar.Stream
import TemplateIdl.Proofs.Token.Proper

/-!
# Legible — words that a text can be written with

A printer puts words one behind the other. Where no word is glued to the next one, the text is
read as the same words again; only closing brackets without a gap between them become shifts.

* `Token.word`, `Token.sign` and `Token.ident`, words without a gap, and `lead`, words behind
  a gap;
* `Spells`, the tokens of a text and the words that it was written with;
* `Legible`, the text of some words is read as these words;
* `Legible.cons` and `Legible.closers`, writing a word and writing closing brackets.
-/

namespace TemplateIdl

/-! ## Words -/

namespace Token

/-- A token without a gap and a place. -/
def word (k : Kind) (s : String) : Token := ⟨k, s, "", default⟩

/-- A token of a kind that has a fixed spelling. -/
def sign (k : Kind) : Token := word k (k.spelling.getD "")

/-- An identifier. -/
def ident (s : String) : Token := word .identifier s

/-- The token behind the gap `g`. -/
def behind (t : Token) (g : String) : Token := { t with gap := g }

@[simp] theorem kind_behind (t : Token) (g : String) : (t.behind g).kind = t.kind := rfl

@[simp] theorem lexeme_behind (t : Token) (g : String) : (t.behind g).lexeme = t.lexeme := rfl

@[simp] theorem gap_behind (t : Token) (g : String) : (t.behind g).gap = g := rfl

@[simp] theorem lexeme_word (k : Kind) (s : String) : (word k s).lexeme = s := rfl

@[simp] theorem gap_word (k : Kind) (s : String) : (word k s).gap = "" := rfl

@[simp] theorem kind_sign (k : Kind) : (sign k).kind = k := rfl

theorem word_proper {k : Kind} {s : String} (h : isTokenText k s = true) : (word k s).Proper := h

theorem sign_proper {k : Kind} (h : k.spelling.isSome = true) : (sign k).Proper := by
  obtain ⟨s, hs⟩ := Option.isSome_iff_exists.1 h
  rw [sign, hs]
  exact isTokenText_spelling hs

theorem ident_proper {s : String} (h : isIdentifier s = true) : (ident s).Proper :=
  isTokenText_identifier.2 h

end Token

/-- Words with the gap `g` in front of the first one. -/
def lead (g : String) : List Token → List Token
  | [] => []
  | t :: ts => t.behind g :: ts

@[simp] theorem lead_nil (g : String) : lead g [] = [] := rfl

@[simp] theorem lead_cons (g : String) (t : Token) (ts : List Token) :
    lead g (t :: ts) = t.behind g :: ts := rfl

theorem lead_lead (g g' : String) (ws : List Token) : lead g (lead g' ws) = lead g ws := by
  cases ws <;> rfl

theorem lead_append {ws : List Token} (h : ws ≠ []) (g : String) (vs : List Token) :
    lead g (ws ++ vs) = lead g ws ++ vs := by
  cases ws with
  | nil => exact absurd rfl h
  | cons w ws => rfl

/-! ## Tokens and words -/

/-- A closing angle bracket behind the gap `g`. -/
def closer (g : String) : Token := (Token.sign .greater).behind g

/-- The tokens spell the words: a shift stands for two closing brackets that have no gap between
them. Places do not matter. -/
inductive Spells : List Token → List Token → Prop
  | nil : Spells [] []
  | same {t w : Token} {ts ws : List Token} (h : t.bare = w.bare) (hr : Spells ts ws) :
      Spells (t :: ts) (w :: ws)
  | shift {t : Token} {ts ws : List Token} (hk : t.kind = .greaterGreater)
      (hl : t.lexeme = ">>") (hr : Spells ts ws) :
      Spells (t :: ts) (closer t.gap :: closer "" :: ws)

theorem Spells.append_same (ds : List Token) {ts ws : List Token} (h : Spells ts ws) :
    Spells (ds ++ ts) (ds ++ ws) := by
  induction ds with
  | nil => exact h
  | cons d ds ih => exact .same rfl ih

theorem Spells.lead {ts ws : List Token} (h : Spells ts ws) (g : String) :
    Spells (lead g ts) (lead g ws) := by
  cases h with
  | nil => exact .nil
  | same hb hr =>
    obtain ⟨hk, hl, -⟩ := Token.bare_eq_iff.1 hb
    exact .same (Token.bare_eq_iff.2 ⟨hk, hl, rfl⟩) hr
  | @shift t ts ws hk hl hr => exact .shift (t := t.behind g) hk hl hr

/-! ## Gaps in front of a text -/

/-- Without the blanks and comments in front of it, a text has the same tokens. -/
theorem LexesFrom.strip {gap cs : List Char} {t : Token} {ts : List Token}
    (h : LexesFrom gap cs (t :: ts)) :
    ∃ x y, cs = x ++ y ∧ t.gap.toList = gap ++ x ∧ Lexes y (lead "" (t :: ts)) := by
  generalize hall : t :: ts = all at h
  induction h with
  | done => cases hall
  | comment hscan _ _ ih =>
    obtain ⟨x, y, rfl, hgap, hy⟩ := ih hall
    refine ⟨_, y, ?_, by rw [hgap, List.append_assoc], hy⟩
    rw [← Piece.text_append_of_scan hscan, List.append_assoc]
  | @token gap cs rest p k ts' hscan hk hr =>
    obtain ⟨rfl, rfl⟩ := List.cons.inj hall
    obtain ⟨c, l, r, -, hl, hf⟩ := scan_eq_some hscan
    have happ := Bite.first_splits c r
    have hbody : p.body ++ rest = c :: r := by
      have hsplit := happ.append
      rw [hf] at hsplit
      rwa [hl]
    refine ⟨p.blank, p.body ++ rest, ?_, by simp, ?_⟩
    · rw [← Piece.text_append_of_scan hscan, Piece.text, List.append_assoc]
    · -- a token begins with a visible character, so there are no blanks left
      have hblank : splitBlank ([] ++ c :: r) = ([], c :: r) :=
        splitBlank_blanks (by simp) (Bite.head_of_first (hk ▸ hf))
      have hscan' : Piece.scan (c :: r) = some (⟨[], p.body, p.kind⟩, rest) := by
        rw [List.nil_append] at hblank
        rw [Piece.scan, hblank]
        simp only [hf, hl]
      rw [hbody]
      exact .token (p := ⟨[], p.body, p.kind⟩) hscan' hk hr

theorem isBlank_space : isBlank ' ' = true := by decide

/-- A text whose first token has no gap, behind some blanks. -/
theorem Lexes.behind {cs : List Char} {t : Token} {ts : List Token} {g : String}
    (hb : ∀ d ∈ g.toList, isBlank d = true) (h : Lexes cs (t :: ts)) (hg : t.gap = "") :
    Lexes (g.toList ++ cs) (lead g (t :: ts)) := by
  rcases h with _ | ⟨hscan, -, hr⟩ | ⟨hscan, hk, hr⟩
  · -- a comment in front of the first token would be a gap
    obtain ⟨x, -, -, hgap, -⟩ := hr.strip
    have hbody := Piece.body_ne_nil_of_scan hscan
    rw [hg] at hgap
    simp [Piece.text, hbody] at hgap
  · next rest p k =>
    obtain ⟨c, l, r, hs, hl, hf⟩ := scan_eq_some hscan
    have hblank : p.blank = [] := by simpa using congrArg String.toList hg
    have hcs := splitBlank_append cs
    rw [hs, hblank] at hcs
    have hs' : splitBlank (g.toList ++ c :: r) = (g.toList, c :: r) :=
      splitBlank_blanks hb (Bite.head_of_first (hk ▸ hf))
    have hscan' : Piece.scan (g.toList ++ cs) = some (⟨g.toList, p.body, p.kind⟩, rest) := by
      rw [← hcs, Piece.scan]
      simp only [List.nil_append, hs', hf, hl]
    have hlexes : Lexes (g.toList ++ cs)
        (⟨k, String.ofList p.body, String.ofList ([] ++ g.toList), default⟩ :: ts) :=
      .token (p := ⟨g.toList, p.body, p.kind⟩) hscan' hk hr
    rw [List.nil_append, String.ofList_toList] at hlexes
    exact hlexes

/-! ## Legible words -/

/-- The text of the words in front of `tail`. -/
def Legible (ws : List Token) (tail : List Char) : Prop :=
  ∃ ts, Lexes (Token.chars ws ++ tail) ts ∧ Spells ts ws

/-- The text of the words in front of `tail` begins with a character that satisfies `P`, or is
empty. -/
def Starts (P : Char → Prop) (ws : List Token) (tail : List Char) : Prop :=
  ∀ d ∈ (Token.chars ws ++ tail).head?, P d

/-- The text of the words in front of `tail` begins with a break. -/
def Stops (ws : List Token) (tail : List Char) : Prop :=
  Starts (fun d => Bite.isBreak d = true) ws tail

theorem Starts.mono {P Q : Char → Prop} {ws : List Token} {tail : List Char}
    (h : Starts P ws tail) (hPQ : ∀ d, P d → Q d) : Starts Q ws tail :=
  fun d hd => hPQ d (h d hd)

theorem Starts.lexeme {P : Char → Prop} {w : Token} {c : Char} {l : List Char}
    (hg : w.gap = "") (hl : w.lexeme.toList = c :: l) (hc : P c) (ws : List Token)
    (tail : List Char) : Starts P (w :: ws) tail := by
  intro d hd
  rw [Token.chars_cons, hg, hl] at hd
  simp only [String.toList_empty, List.nil_append, List.cons_append, List.head?_cons,
    Option.mem_def, Option.some.injEq] at hd
  exact hd ▸ hc

theorem Starts.gap {P : Char → Prop} {w : Token} {c : Char} {l : List Char}
    (hg : w.gap.toList = c :: l) (hc : P c) (ws : List Token) (tail : List Char) :
    Starts P (w :: ws) tail := by
  intro d hd
  rw [Token.chars_cons, hg] at hd
  simp only [List.cons_append, List.head?_cons, Option.mem_def, Option.some.injEq] at hd
  exact hd ▸ hc

theorem Legible.nil : Legible [] [] := ⟨[], .nil, .nil⟩

theorem Legible.cons {w : Token} {ws : List Token} {tail : List Char} (hw : w.Proper)
    (hb : ∀ d ∈ w.gap.toList, isBlank d = true)
    (hg : Starts (fun d => Bite.glued w.lexeme.toList d = false) ws tail)
    (h : Legible ws tail) : Legible (w :: ws) tail := by
  obtain ⟨ts, hlex, hspell⟩ := h
  refine ⟨w.bare :: ts, ?_, .same rfl hspell⟩
  rw [Token.chars_cons, List.append_assoc, List.append_assoc]
  exact hlex.cons hw hb hg

theorem Legible.cons_of_stops {w : Token} {ws : List Token} {tail : List Char} (hw : w.Proper)
    (hb : ∀ d ∈ w.gap.toList, isBlank d = true) (hs : Stops ws tail) (h : Legible ws tail) :
    Legible (w :: ws) tail :=
  h.cons hw hb (hs.mono fun _ hd => Bite.glued_of_isBreak hd _)

theorem glued_closer {d : Char} (h : d ≠ '>' ∧ d ≠ '=') : Bite.glued ['>'] d = false := by
  have hf : Bite.followers ['>'] = ['>', '>', '='] := by decide
  have hs : Bite.extendsSymbol ['>'] d = false := by simp [Bite.extendsSymbol, hf, h]
  exact hs

theorem glued_shift {d : Char} (h : d ≠ '=') : Bite.glued ['>', '>'] d = false := by
  have hf : Bite.followers ['>', '>'] = ['='] := by decide
  have hs : Bite.extendsSymbol ['>', '>'] d = false := by simp [Bite.extendsSymbol, hf, h]
  exact hs

theorem starts_closers {P : Char → Prop} (n : Nat) (hP : 0 < n → P '>') {ws : List Token}
    {tail : List Char} (h : n = 0 → Starts P ws tail) :
    Starts P (List.replicate n (closer "") ++ ws) tail := by
  cases n with
  | zero => exact h rfl
  | succ n => exact .lexeme (c := '>') (l := []) rfl rfl (hP (by omega)) _ _

/-- Closing brackets become shifts from the left. -/
theorem Legible.closers (n : Nat) {ws : List Token} {tail : List Char}
    (hs : Starts (fun d => d ≠ '>' ∧ d ≠ '=') ws tail) (h : Legible ws tail) :
    Legible (List.replicate n (closer "") ++ ws) tail := by
  match n with
  | 0 => exact h
  | 1 => exact h.cons (Token.sign_proper rfl) (by simp [closer]) (hs.mono fun d hd => glued_closer hd)
  | n + 2 =>
    -- the first two are read as a shift, which no `=` follows
    obtain ⟨ts, hlex, hspell⟩ := Legible.closers n hs h
    have hstart : Starts (fun d => d ≠ '=') (List.replicate n (closer "") ++ ws) tail :=
      starts_closers n (fun _ => by decide) fun _ => hs.mono fun _ hd => hd.2
    have hshift : (Token.sign .greaterGreater).Proper := Token.sign_proper rfl
    refine ⟨Token.sign .greaterGreater :: ts, ?_, .shift rfl rfl hspell⟩
    exact hlex.cons hshift (by simp [Token.sign, Token.word])
      (hstart.mono fun d hd => glued_shift hd)

/-- Words behind some blanks. -/
theorem Legible.behind {w : Token} {ws : List Token} {tail : List Char} {g : String}
    (h : Legible (w :: ws) tail) (hg : w.gap = "") (hb : ∀ d ∈ g.toList, isBlank d = true) :
    Legible (w.behind g :: ws) tail := by
  obtain ⟨ts, hlex, hspell⟩ := h
  obtain ⟨t, us, rfl, ht⟩ : ∃ t us, ts = t :: us ∧ t.gap = "" := by
    cases hspell with
    | same hb hr => exact ⟨_, _, rfl, (Token.bare_eq_iff.1 hb).2.2.trans hg⟩
    | shift => exact ⟨_, _, rfl, hg⟩
  refine ⟨lead g (t :: us), ?_, hspell.lead g⟩
  have hbehind := hlex.behind hb ht
  simpa [hg] using hbehind

/-- A run of tokens that are the tokens of their own text. -/
theorem Legible.run {ds ws : List Token} {tail : List Char} (hd : Lexes (Token.chars ds) ds)
    (hs : Stops ws tail) (h : Legible ws tail) : Legible (ds ++ ws) tail := by
  cases ds with
  | nil => exact h
  | cons t ds =>
    obtain ⟨ts, hlex, hspell⟩ := h
    have hall : LexesFrom [] (Token.chars (t :: ds)) (t :: ds ++ []) := by
      rwa [List.append_nil]
    obtain ⟨z, q, -, hz, hchars, -, hread⟩ := hall.cut (by simp)
    rw [List.nil_append] at hchars
    refine ⟨t :: ds ++ ts, ?_, hspell.append_same _⟩
    rw [Token.chars_append, List.append_assoc, ← hchars]
    exact hread (Token.chars ws ++ tail) ts hs hlex

end TemplateIdl
