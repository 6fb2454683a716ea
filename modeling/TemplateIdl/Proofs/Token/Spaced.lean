import TemplateIdl.Proofs.Token.Legible

/-!
# Spaced — tokens with blanks between them

No token goes on with a blank. So what a scanner has taken for a token does not depend on what
stood around it: behind blanks and in front of blanks it is the same token again.

* `Bite.isBreak_of_isBlank`, blanks are breaks;
* `Spaced` and `Spaced.lexes`, tokens with any blanks between them are read from their text;
* `Token.spaced`, the tokens with one space between them, and `Lexed.ofSource_spaced`, the tokens
  of a text are those of their lexemes with spaces between them.
-/

namespace TemplateIdl

/-! ## Blanks -/

namespace Bite

theorem visible_of_isNumberChar {c : Char} (h : isNumberChar c = true) :
    33 ≤ c.toNat ∧ c.toNat ≤ 126 := by
  simp only [isNumberChar, isWordChar, Char.isAlphanum, Bool.or_eq_true, beq_iff_eq, isAlpha_iff,
    isDigit_iff] at h
  rcases h with (((h | rfl) | rfl) | rfl) | rfl
  · omega
  all_goals decide

theorem visible_of_continuesSymbol {c : Char} (h : continuesSymbol c = true) :
    33 ≤ c.toNat ∧ c.toNat ≤ 126 := by
  have hvisible : ∀ s ∈ Kind.symbols,
      s.1.tail.all (fun d => decide (33 ≤ d.toNat ∧ d.toNat ≤ 126)) = true := by decide
  obtain ⟨s, hs, hc⟩ := List.any_eq_true.1 h
  exact of_decide_eq_true (List.all_eq_true.1 (hvisible s hs) c (List.contains_iff_mem.1 hc))

/-- No token goes on with a blank. -/
theorem isBreak_of_isBlank {c : Char} (h : isBlank c = true) : isBreak c = true := by
  have hout : ¬ (33 ≤ c.toNat ∧ c.toNat ≤ 126) := by
    intro hc
    rw [isBlank_of_visible hc] at h
    cases h
  rw [isBreak_iff]
  refine ⟨?_, ?_, ?_, ?_⟩
  · exact Bool.eq_false_iff.2 fun hn => hout (visible_of_isNumberChar hn)
  · exact Bool.eq_false_iff.2 fun hs => hout (visible_of_continuesSymbol hs)
  · rintro rfl
    cases h
  · rintro rfl
    cases h

end Bite

/-! ## Tokens apart from each other -/

/-- Between the tokens there are blanks, and nothing else. -/
structure Spaced (ts : List Token) : Prop where
  blank : ∀ t ∈ ts, ∀ c ∈ t.gap.toList, isBlank c = true
  /-- In front of the first token there need not be any. -/
  apart : ∀ t ∈ ts.tail, t.gap ≠ ""

namespace Spaced

variable {t : Token} {ts : List Token}

theorem tail (h : Spaced (t :: ts)) : Spaced ts :=
  ⟨fun u hu => h.blank u (List.mem_cons_of_mem _ hu),
    fun u hu => h.apart u (List.mem_of_mem_tail hu)⟩

/-- The text behind the first token begins with a break. -/
theorem breaks (h : Spaced (t :: ts)) : Breaks (Token.chars ts) := by
  intro d hd
  cases ts with
  | nil => cases hd
  | cons u us =>
    have hgap : u.gap.toList ≠ [] := by simpa using h.apart u List.mem_cons_self
    obtain ⟨c, l, hl⟩ := List.exists_cons_of_ne_nil hgap
    rw [Token.chars_cons, hl] at hd
    obtain rfl : c = d := Option.some.inj hd
    exact Bite.isBreak_of_isBlank (h.blank u (by simp) c (by simp [hl]))

/-- Tokens with blanks between them are read from their text. -/
theorem lexes (h : Spaced ts) (hp : ∀ t ∈ ts, t.Proper) :
    Lexes (Token.chars ts) (ts.map Token.bare) := by
  induction ts with
  | nil => exact .nil
  | cons t ts ih =>
    rw [List.forall_mem_cons] at hp
    rw [Token.chars_cons]
    refine .cons hp.1 (h.blank t List.mem_cons_self) ?_ (ih h.tail hp.2)
    exact fun d hd => Bite.glued_of_isBreak (h.breaks d hd) _

end Spaced

/-! ## Single spaces -/

namespace Token

/-- The tokens with one space between them. -/
def spaced : List Token → List Token
  | [] => []
  | t :: ts => t.behind "" :: ts.map (·.behind " ")

theorem spaced_isSpaced (ts : List Token) : Spaced (spaced ts) := by
  cases ts with
  | nil => exact ⟨by simp [spaced], by simp [spaced]⟩
  | cons t ts => exact ⟨by simp [spaced, isBlank_space], by simp [spaced]⟩

theorem spaced_proper {ts : List Token} (h : ∀ t ∈ ts, t.Proper) : ∀ t ∈ spaced ts, t.Proper := by
  cases ts with
  | nil => exact h
  | cons t ts =>
    rw [List.forall_mem_cons] at h
    rw [spaced, List.forall_mem_cons, List.forall_mem_map]
    exact h

theorem chars_spaced (ts : List Token) :
    chars (spaced ts) = (" ".intercalate (ts.map lexeme)).toList := by
  cases ts with
  | nil => rfl
  | cons t ts =>
    rw [spaced, chars_cons, gap_behind, lexeme_behind, String.toList_empty, List.nil_append]
    induction ts generalizing t with
    | nil => simp
    | cons u us ih =>
      rw [List.map_cons, chars_cons, gap_behind, lexeme_behind, ih, List.map_cons, List.map_cons,
        List.map_cons, String.intercalate_cons_cons, String.toList_append, String.toList_append,
        List.append_assoc]

/-- What a token says, wherever it stands. -/
def reading (t : Token) : Kind × String := (t.kind, t.lexeme)

theorem map_reading_spaced (ts : List Token) : (spaced ts).map reading = ts.map reading := by
  cases ts with
  | nil => rfl
  | cons t ts =>
    rw [spaced, List.map_cons, List.map_map]
    rfl

end Token

namespace Lexed

/-- **Tokens do not depend on what stands around them.** From the lexemes of the tokens of a text,
with one space between them, the same tokens are read. -/
theorem ofSource_spaced {source : String} (h : (ofSource source).errors = []) :
    (ofSource (" ".intercalate ((ofSource source).tokens.map Token.lexeme))).errors = [] ∧
      (ofSource (" ".intercalate ((ofSource source).tokens.map Token.lexeme))).tokens.map
        Token.reading = (ofSource source).tokens.map Token.reading := by
  have hlexes := (lexes_iff_ofSource source _).2 ⟨h, rfl⟩
  have hproper : ∀ t ∈ (ofSource source).tokens, t.Proper := fun t ht =>
    hlexes.proper t.bare (List.mem_map_of_mem ht)
  have hspaced := (Token.spaced_isSpaced _).lexes (Token.spaced_proper hproper)
  rw [Token.chars_spaced, lexes_iff_ofSource] at hspaced
  obtain ⟨herrors, htokens⟩ := hspaced
  refine ⟨herrors, ?_⟩
  -- without their places the tokens still have their kinds and lexemes
  have hbare : ∀ ts : List Token, (ts.map Token.bare).map Token.reading = ts.map Token.reading :=
    fun ts => List.map_map
  rw [← hbare, htokens, hbare, Token.map_reading_spaced]

/-- A text with numbers that lack some of their parts, signs without a gap, an escaped line feed in
a string, and an include directive that more text follows. -/
def crampedText : String :=
  "\uFEFF#include \"a>b\"//c\nx=-1..5e+f(0xu,.5)->'\\\n'>>=1.e"

/-- The sixteen tokens of the text are lexed again with spaces in place of its gaps, and with spaces
where it has none. -/
theorem crampedText_spaced : (ofSource crampedText).errors = [] ∧
    (ofSource crampedText).tokens.map Token.lexeme = ["#include \"a>b\"", "x", "=", "-", "1.",
      ".5e+f", "(", "0xu", ",", ".5", ")", "->", "'\\\n'", ">>=", "1.", "e"] ∧
    (ofSource "#include \"a>b\" x = - 1. .5e+f ( 0xu , .5 ) -> '\\\n' >>= 1. e").errors = [] ∧
    (ofSource "#include \"a>b\" x = - 1. .5e+f ( 0xu , .5 ) -> '\\\n' >>= 1. e").tokens.map
      Token.reading = (ofSource crampedText).tokens.map Token.reading := by
  have herrors : (ofSource crampedText).errors = [] := by decide +kernel
  have hlexemes : (ofSource crampedText).tokens.map Token.lexeme = ["#include \"a>b\"", "x", "=",
      "-", "1.", ".5e+f", "(", "0xu", ",", ".5", ")", "->", "'\\\n'", ">>=", "1.", "e"] := by
    decide +kernel
  have hspaced := ofSource_spaced herrors
  rw [hlexemes] at hspaced
  exact ⟨herrors, hlexemes, hspaced⟩

end Lexed

end TemplateIdl
