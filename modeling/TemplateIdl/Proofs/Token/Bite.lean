import Mathlib.Data.List.Nodup
import TemplateIdl.Token.Piece

/-!
# Bites — a token does not depend on what follows far behind it

A scanner looks one or two characters ahead. So the text of a token is read as the same token
in front of any other text, as long as that text goes on in the same way or with a character
that cannot belong to the token.

* `Bite.Cut`, two texts that go on in the same way up to a harmless place;
* `Bite.glued`, the characters that could belong to a token if they stood right behind it;
* `Bite.first_cut`, a token in front of another text.
-/

namespace TemplateIdl

namespace Bite

/-- `r'` goes on like `r` up to some place, where it ends or has a character that is not
`bad`. -/
inductive Cut (bad : Char → Bool) : List Char → List Char → Prop
  | stop {r x : List Char} (h : ∀ d ∈ x.head?, bad d = false) : Cut bad r x
  | cons {c : Char} {r r' : List Char} (h : Cut bad r r') : Cut bad (c :: r) (c :: r')

namespace Cut

variable {bad : Char → Bool} {r r' : List Char}

theorem append (h : Cut bad r r') (p : List Char) : Cut bad (p ++ r) (p ++ r') := by
  induction p with
  | nil => exact h
  | cons c p ih => exact .cons ih

theorem nil : Cut bad r [] :=
  .stop (by simp)

/-- What holds of the next character still holds of it if it holds of all characters that are
not bad. -/
theorem head (h : Cut bad r r') {Q : Char → Prop} (hr : ∀ d ∈ r.head?, Q d)
    (hQ : ∀ d, bad d = false → Q d) : ∀ d ∈ r'.head?, Q d := by
  cases h with
  | stop h => exact fun d hd => hQ d (h d hd)
  | cons h => simpa using hr

end Cut

/-! ## Stretches of characters -/

theorem takeWhile_eq_of {P : Char → Bool} {l r : List Char} (hl : ∀ c ∈ l, P c = true)
    (hr : ∀ d ∈ r.head?, P d = false) : (l ++ r).takeWhile P = l ∧ (l ++ r).dropWhile P = r := by
  induction l with
  | nil =>
    cases r with
    | nil => exact ⟨rfl, rfl⟩
    | cons d r =>
      have hd : P d = false := hr d (by simp)
      simp [hd]
  | cons c l ih =>
    have hc : P c = true := hl c (by simp)
    obtain ⟨h1, h2⟩ := ih fun a ha => hl a (by simp [ha])
    simp [hc, h1, h2]

theorem all_takeWhile {P : Char → Bool} (cs : List Char) : ∀ c ∈ cs.takeWhile P, P c = true := by
  intro c hc
  induction cs with
  | nil => simp at hc
  | cons d cs ih =>
    by_cases hd : P d = true
    · rw [List.takeWhile_cons_of_pos hd] at hc
      rcases List.mem_cons.1 hc with rfl | hc
      · exact hd
      · exact ih hc
    · rw [List.takeWhile_cons_of_neg hd] at hc
      simp at hc

theorem head_dropWhile {P : Char → Bool} (cs : List Char) :
    ∀ d ∈ (cs.dropWhile P).head?, P d = false := by
  induction cs with
  | nil => simp
  | cons d cs ih =>
    by_cases hd : P d = true
    · rw [List.dropWhile_cons_of_pos hd]; exact ih
    · rw [List.dropWhile_cons_of_neg hd]
      simpa using hd

/-- A stretch of characters with `P` in front of another text. -/
theorem stretch_cut {P bad : Char → Bool} (hb : ∀ d, P d = true → bad d = true)
    {cs r' : List Char} (h : Cut bad (cs.dropWhile P) r') :
    (cs.takeWhile P ++ r').takeWhile P = cs.takeWhile P ∧
      (cs.takeWhile P ++ r').dropWhile P = r' := by
  refine takeWhile_eq_of (all_takeWhile cs) (h.head (head_dropWhile cs) fun d hd => ?_)
  cases hP : P d with
  | false => rfl
  | true => rw [hb d hP] at hd; cases hd

/-! ## Quoted texts and directives -/

theorem splitQuote_cons {quote c : Char} (hn : c ≠ '\n') (hb : c ≠ '\\') (cs : List Char) :
    splitQuote quote (c :: cs) =
      if c = quote then (true, [c], cs)
      else ((splitQuote quote cs).1, c :: (splitQuote quote cs).2.1,
        (splitQuote quote cs).2.2) := by
  rw [splitQuote]
  · exact hn
  · exact fun h => absurd h hb
  · exact fun _ _ h => absurd h hb

theorem splitQuote_cut {quote : Char} {cs : List Char} (h : (splitQuote quote cs).1 = true)
    (r' : List Char) :
    splitQuote quote ((splitQuote quote cs).2.1 ++ r') =
      (true, (splitQuote quote cs).2.1, r') := by
  fun_induction splitQuote quote cs with
  | case1 => cases h
  | case2 => cases h
  | case3 => cases h
  | case4 c cs s ih =>
    -- a backslash takes the next character along, in front of any text
    have hs := ih h
    simp only [List.cons_append, splitQuote]
    rw [hs]
  | case5 c h1 h2 h3 =>
    -- the closing quote is no backslash, or an earlier case would have applied
    have hb : quote ≠ '\\' := by
      rintro rfl
      cases c with
      | nil => exact h2 rfl rfl
      | cons a t => exact h3 a t rfl rfl
    rw [List.singleton_append, splitQuote_cons h1 hb, if_pos rfl]
  | case6 c cs h1 h2 h3 hc s ih =>
    have hs := ih h
    have hb : c ≠ '\\' := by
      rintro rfl
      cases cs with
      | nil => exact h2 rfl rfl
      | cons a t => exact h3 a t rfl rfl
    rw [List.cons_append, splitQuote_cons h1 hb, if_neg hc, hs]

theorem quoted_cut {quote : Char} {cs l r : List Char} {k : Kind}
    (h : quoted quote cs = ⟨.token k, quote :: l, r⟩) (r' : List Char) :
    quoted quote (l ++ r') = ⟨.token k, quote :: l, r'⟩ := by
  rcases hs : splitQuote quote cs with ⟨found, front, rest⟩
  simp only [quoted, hs, Bite.mk.injEq, List.cons.injEq, true_and] at h
  obtain ⟨hk, rfl, -⟩ := h
  cases found with
  | false => cases hk
  | true =>
    have hcut := splitQuote_cut (by rw [hs]) r'
    rw [hs] at hcut
    rw [quoted, hcut, ← hk]

theorem includePath_cut {close : Char} {front cs l r : List Char} {k : Kind}
    (h : includePath close front cs = ⟨.token k, l, r⟩) :
    ∃ p, l = front ++ p ∧ ∀ r', includePath close front (p ++ r') = ⟨.token k, l, r'⟩ := by
  have hall := all_takeWhile (P := fun c => c != close && c != '\n') cs
  unfold includePath at h
  dsimp only at h
  split at h
  · next c after hd =>
    split at h
    · next hc =>
      obtain ⟨rfl, hb⟩ := hc
      cases h
      refine ⟨cs.takeWhile (fun d => d != c && d != '\n') ++ [c], by simp, fun r' => ?_⟩
      obtain ⟨h1, h2⟩ := takeWhile_eq_of (r := c :: r') hall (by simp)
      rw [List.append_assoc, List.singleton_append]
      unfold includePath
      dsimp only
      rw [h1, h2]
      simp only [true_and, if_pos hb, List.append_assoc]
    · cases h
  · cases h

theorem directive_cut {cs l r : List Char} {k : Kind}
    (h : directive cs = ⟨.token k, l, r⟩) (r' : List Char) :
    directive (l ++ r') = ⟨.token k, l, r'⟩ := by
  unfold directive at h
  split at h
  · next hw =>
    obtain ⟨rest, rfl⟩ := List.isPrefixOf_iff_prefix.1 hw
    rw [List.drop_left] at h
    dsimp only at h
    split at h
    · next d after hd =>
      split at h
      · next close hclose =>
        obtain ⟨p, rfl, hp⟩ := includePath_cut h
        -- the blanks behind the word end in front of the opening sign `d`
        have hall := all_takeWhile (P := isSpaceOrTab) rest
        have hh := head_dropWhile (P := isSpaceOrTab) rest
        rw [hd] at hh
        obtain ⟨h1, h2⟩ := takeWhile_eq_of (r := d :: (p ++ r')) hall (by simpa using hh)
        rw [show includeWord ++ rest.takeWhile isSpaceOrTab ++ [d] ++ p ++ r' =
          includeWord ++ (rest.takeWhile isSpaceOrTab ++ d :: (p ++ r')) by simp]
        unfold directive
        rw [if_pos (List.isPrefixOf_iff_prefix.2 (List.prefix_append _ _)), List.drop_left]
        dsimp only
        rw [h1, h2]
        simp only [hclose]
        exact hp r'
      · cases h
    · cases h
  · cases h

/-! ## Numbers -/

/-- Characters that could belong to a number. -/
def isNumberChar (c : Char) : Bool :=
  isWordChar c || c == '.' || c == '+' || c == '-'

theorem isNumberChar_of_isDigit {c : Char} (h : c.isDigit = true) : isNumberChar c = true := by
  simp [isNumberChar, isWordChar, Char.isAlphanum, h]

theorem isDigit_iff {c : Char} : c.isDigit = true ↔ 48 ≤ c.toNat ∧ c.toNat ≤ 57 := by
  delta Char.isDigit
  simp only [Bool.and_eq_true, decide_eq_true_eq, ge_iff_le, UInt32.le_iff_toNat_le]
  exact Iff.rfl

theorem isAlpha_iff {c : Char} : c.isAlpha = true ↔
    (65 ≤ c.toNat ∧ c.toNat ≤ 90) ∨ (97 ≤ c.toNat ∧ c.toNat ≤ 122) := by
  delta Char.isAlpha Char.isUpper Char.isLower
  simp only [Bool.or_eq_true, Bool.and_eq_true, decide_eq_true_eq, ge_iff_le,
    UInt32.le_iff_toNat_le]
  exact Iff.rfl

theorem isNumberChar_of_isHexDigit {c : Char} (h : isHexDigit c = true) :
    isNumberChar c = true := by
  have hc : c.isDigit = true ∨ c.isAlpha = true := by
    rw [isDigit_iff, isAlpha_iff]
    simp only [isHexDigit, isDigit_iff, Bool.or_eq_true, Bool.and_eq_true, decide_eq_true_eq,
      Char.le_def, UInt32.le_iff_toNat_le] at h
    have hz : ('a').val.toNat = 97 ∧ ('f').val.toNat = 102 ∧ ('A').val.toNat = 65 ∧
      ('F').val.toNat = 70 := by decide
    have hv : c.val.toNat = c.toNat := rfl
    omega
  rcases hc with hc | hc <;> simp [isNumberChar, isWordChar, Char.isAlphanum, hc]

theorem isNumberChar_of_isIntSuffix {c : Char} (h : isIntSuffix c = true) :
    isNumberChar c = true := by
  simp only [isIntSuffix, Bool.or_eq_true, beq_iff_eq] at h
  rcases h with ((rfl | rfl) | rfl) | rfl <;> decide

theorem splitFraction_none {x : List Char} (h : ∀ d ∈ x.head?, d ≠ '.') :
    splitFraction x = ([], x) := by
  cases x with
  | nil => rfl
  | cons d x => rw [splitFraction, if_neg (h d (by simp))]

theorem splitFraction_cut {cs f r r' : List Char} (h : splitFraction cs = (f, r))
    (hr : Cut isNumberChar r r') : splitFraction (f ++ r') = (f, r') := by
  have hgood : ∀ d, isNumberChar d = false → d ≠ '.' := by
    rintro d hd rfl
    cases hd
  cases cs with
  | nil =>
    cases h
    exact splitFraction_none (hr.head (by simp) hgood)
  | cons c cs =>
    rw [splitFraction] at h
    split at h
    · next hc =>
      cases h
      obtain ⟨h1, h2⟩ := stretch_cut (fun d => isNumberChar_of_isDigit) hr
      rw [List.cons_append, splitFraction, if_pos hc, h1, h2]
    · next hc =>
      cases h
      exact splitFraction_none (hr.head (by simpa using hc) hgood)

/-- No exponent begins a text. -/
def NoExponent (x : List Char) : Prop :=
  ∀ a ∈ x.head?, (a = 'e' ∨ a = 'E') →
    ∀ d ∈ x.tail.head?, ¬ (d.isDigit = true ∨ d = '+' ∨ d = '-')

theorem splitExponent_none {x : List Char} (h : NoExponent x) : splitExponent x = ([], x) := by
  match x, h with
  | [], _ => rfl
  | [_], _ => rfl
  | a :: d :: x, h =>
    rw [splitExponent, if_neg]
    exact fun hc => h a (by simp) hc.1 d (by simp) hc.2

theorem NoExponent.cut {r r' : List Char} (h : NoExponent r) (hr : Cut isNumberChar r r') :
    NoExponent r' := by
  cases hr with
  | stop hs =>
    intro a ha he
    have hbad := hs a ha
    rcases he with rfl | rfl <;> cases hbad
  | cons hr =>
    intro a ha he
    refine hr.head (h a (by simpa using ha) he) fun d hd => ?_
    rintro (hd' | rfl | rfl)
    · rw [isNumberChar_of_isDigit hd'] at hd
      cases hd
    · cases hd
    · cases hd

theorem splitExponent_cut {cs e r r' : List Char} (h : splitExponent cs = (e, r))
    (hr : Cut isNumberChar r r') : splitExponent (e ++ r') = (e, r') := by
  match cs, h with
  | [], h =>
    cases h
    exact splitExponent_none (NoExponent.cut (by simp [NoExponent]) hr)
  | [a], h =>
    cases h
    exact splitExponent_none (NoExponent.cut (by simp [NoExponent]) hr)
  | a :: c :: cs, h =>
    rw [splitExponent] at h
    split at h
    · next hc =>
      cases h
      obtain ⟨h1, h2⟩ := stretch_cut (fun d => isNumberChar_of_isDigit) hr
      rw [List.cons_append, List.cons_append, splitExponent, if_pos hc, h1, h2]
    · next hc =>
      cases h
      refine splitExponent_none (NoExponent.cut ?_ hr)
      intro a' ha he d hd hd'
      simp only [List.head?_cons, List.tail_cons, Option.mem_def, Option.some.injEq] at ha hd
      subst ha hd
      exact hc ⟨he, hd'⟩

theorem splitSuffix_cut {cs s r r' : List Char} {b : Bool} (h : splitSuffix cs = (b, s, r))
    (hr : Cut isNumberChar r r') : splitSuffix (s ++ r') = (b, s, r') := by
  have hnone : ∀ x : List Char, (∀ d ∈ x.head?, ¬ (d = 'f' ∨ d = 'F') ∧ isIntSuffix d = false) →
      splitSuffix x = (false, [], x) := by
    intro x hx
    cases x with
    | nil => rfl
    | cons d x =>
      obtain ⟨hf, hs⟩ := hx d (by simp)
      rw [splitSuffix, if_neg hf, List.takeWhile_cons_of_neg (by simp [hs]),
        List.dropWhile_cons_of_neg (by simp [hs])]
  -- a character that cannot belong to a number opens no suffix
  have hgood : ∀ d, isNumberChar d = false → ¬ (d = 'f' ∨ d = 'F') ∧ isIntSuffix d = false := by
    intro d hd
    constructor
    · rintro (rfl | rfl) <;> cases hd
    · cases hs : isIntSuffix d with
      | false => rfl
      | true => rw [isNumberChar_of_isIntSuffix hs] at hd; cases hd
  cases cs with
  | nil =>
    cases h
    exact hnone r' (hr.head (by simp) hgood)
  | cons c cs =>
    rw [splitSuffix] at h
    split at h
    · next hc =>
      cases h
      rw [List.singleton_append, splitSuffix, if_pos hc]
    · next hc =>
      cases h
      by_cases hs : isIntSuffix c = true
      · obtain ⟨h1, h2⟩ := stretch_cut (fun d => isNumberChar_of_isIntSuffix) hr
        rw [List.takeWhile_cons_of_pos hs, List.cons_append] at h1 h2 ⊢
        rw [splitSuffix, if_neg hc, h1, h2]
      · rw [List.dropWhile_cons_of_neg hs] at hr
        rw [List.takeWhile_cons_of_neg hs]
        have hs' : isIntSuffix c = false := by simpa using hs
        exact hnone r' (hr.head (by simpa using ⟨not_or.1 hc, hs'⟩) hgood)

theorem decimalNumber_cut {cs l r r' : List Char} {k : Kind}
    (h : decimalNumber cs = ⟨.token k, l, r⟩) (hr : Cut isNumberChar r r') :
    decimalNumber (l ++ r') = ⟨.token k, l, r'⟩ := by
  rcases hf : splitFraction (cs.dropWhile Char.isDigit) with ⟨f, r1⟩
  rcases he : splitExponent r1 with ⟨e, r2⟩
  rcases hs : splitSuffix r2 with ⟨b, s, r3⟩
  simp only [decimalNumber, hf, he, hs, Bite.mk.injEq] at h
  obtain ⟨hk, rfl, rfl⟩ := h
  have hs2 : s ++ r3 = r2 := by simpa [hs] using splitSuffix_append r2
  have he2 : e ++ r2 = r1 := by simpa [he] using splitExponent_append r1
  have hf2 : f ++ r1 = cs.dropWhile Char.isDigit := by
    simpa [hf] using splitFraction_append (cs.dropWhile Char.isDigit)
  -- from the back: each part of the number is followed by the next one, and the last one by `r'`
  have c2 : Cut isNumberChar r2 (s ++ r') := hs2 ▸ hr.append s
  have c1 : Cut isNumberChar r1 (e ++ (s ++ r')) := he2 ▸ c2.append e
  have c0 : Cut isNumberChar (cs.dropWhile Char.isDigit) (f ++ (e ++ (s ++ r'))) :=
    hf2 ▸ c1.append f
  obtain ⟨h1, h2⟩ := stretch_cut (fun d => isNumberChar_of_isDigit) c0
  simp only [decimalNumber, List.append_assoc, h1, h2, splitFraction_cut hf c1,
    splitExponent_cut he c2, splitSuffix_cut hs hr, hk]

theorem hexNumber_cut {zero x : Char} {cs l r r' : List Char} {k : Kind}
    (h : hexNumber zero x cs = ⟨.token k, zero :: x :: l, r⟩) (hr : Cut isNumberChar r r') :
    hexNumber zero x (l ++ r') = ⟨.token k, zero :: x :: l, r'⟩ := by
  simp only [hexNumber, Bite.mk.injEq, List.cons.injEq, true_and] at h
  obtain ⟨hk, rfl, rfl⟩ := h
  obtain ⟨h1, h2⟩ := stretch_cut (fun d => isNumberChar_of_isIntSuffix) hr
  have c0 : Cut isNumberChar (cs.dropWhile isHexDigit)
      ((cs.dropWhile isHexDigit).takeWhile isIntSuffix ++ r') := by
    have := hr.append ((cs.dropWhile isHexDigit).takeWhile isIntSuffix)
    rwa [List.takeWhile_append_dropWhile] at this
  obtain ⟨h3, h4⟩ := stretch_cut (fun d => isNumberChar_of_isHexDigit) c0
  simp only [hexNumber, List.append_assoc, h1, h2, h3, h4, hk]

/-- A text is not that of a hexadecimal number. -/
def NoHex (cs : List Char) : Prop :=
  cs.head? = some '0' → ∀ x ∈ cs.tail.head?, ¬ (x = 'x' ∨ x = 'X')

theorem number_eq_decimalNumber {cs : List Char} (h : NoHex cs) : number cs = decimalNumber cs := by
  match cs, h with
  | [], _ => rfl
  | [_], _ => rfl
  | zero :: x :: cs, h =>
    rw [number, if_neg]
    rintro ⟨rfl, hx⟩
    exact h rfl x (by simp) hx

theorem NoHex.cut {c : Char} {l r r' : List Char} (h : NoHex (c :: (l ++ r)))
    (hr : Cut isNumberChar r r') : NoHex (c :: (l ++ r')) := by
  intro hc
  refine (hr.append l).head (h (by simpa using hc)) fun d hd => ?_
  rintro (rfl | rfl) <;> cases hd

theorem number_cut {c : Char} {cs l r r' : List Char} {k : Kind}
    (h : number (c :: cs) = ⟨.token k, c :: l, r⟩) (hl : l ++ r = cs)
    (hr : Cut isNumberChar r r') : number (c :: (l ++ r')) = ⟨.token k, c :: l, r'⟩ := by
  by_cases hx : NoHex (c :: cs)
  · rw [number_eq_decimalNumber hx] at h
    rw [number_eq_decimalNumber (NoHex.cut (hl ▸ hx) hr), ← List.cons_append]
    exact decimalNumber_cut h hr
  · -- otherwise the text begins with `0x`, and so does the token
    simp only [NoHex, List.head?_cons, List.tail_cons, Classical.not_imp,
      Classical.not_forall, Classical.not_not, Option.some.injEq] at hx
    obtain ⟨rfl, x, hcs, hx⟩ := hx
    obtain ⟨ds, rfl⟩ := List.head?_eq_some_iff.1 hcs
    rw [number, if_pos ⟨rfl, hx⟩] at h
    have hl' : l = x :: l.tail := by
      simp only [hexNumber, Bite.mk.injEq, List.cons.injEq, true_and] at h
      rw [← h.2.1]
      rfl
    rw [hl'] at h ⊢
    rw [List.cons_append, number, if_pos ⟨rfl, hx⟩]
    exact hexNumber_cut h hr

/-! ## Words and symbols -/

theorem word_cut {cs l r r' : List Char} {k : Kind} (h : word cs = ⟨.token k, l, r⟩)
    (hr : Cut isWordChar r r') : word (l ++ r') = ⟨.token k, l, r'⟩ := by
  simp only [word, Bite.mk.injEq] at h
  obtain ⟨hk, rfl, rfl⟩ := h
  obtain ⟨h1, h2⟩ := stretch_cut (fun _ => id) hr
  simp only [word, h1, h2, hk]

/-- Longer signs stand first. -/
theorem symbols_sorted : Kind.symbols.Pairwise fun s t => t.1.length ≤ s.1.length := by decide

/-- No sign stands twice. -/
theorem symbols_nodup : (Kind.symbols.map Prod.fst).Nodup := by decide

/-- A sign that is two characters longer than another one begins with a sign between them. -/
theorem symbols_between : ∀ s ∈ Kind.symbols, 2 < s.1.length →
    s.1.dropLast ∈ Kind.symbols.map Prod.fst := by decide

theorem symbols_length_le : ∀ s ∈ Kind.symbols, s.1.length ≤ 3 := by decide

/-- The sign found is the longest one that the text begins with. -/
theorem find?_symbols {cs : List Char} {s : List Char × Kind} :
    (Kind.symbols.find? fun t => t.1.isPrefixOf cs) = some s ↔
      s ∈ Kind.symbols ∧ s.1 <+: cs ∧
        ∀ t ∈ Kind.symbols, t.1 <+: cs → t.1.length ≤ s.1.length := by
  have longest : ∀ {s : List Char × Kind},
      (Kind.symbols.find? fun t => t.1.isPrefixOf cs) = some s →
        ∀ t ∈ Kind.symbols, t.1 <+: cs → t.1.length ≤ s.1.length := by
    intro s h t ht hp
    obtain ⟨hs, as, bs, heq, has⟩ := List.find?_eq_some_iff_append.1 h
    have hsorted := heq ▸ symbols_sorted
    rw [heq] at ht
    -- a sign in front of `s` does not fit, and those behind it are no longer
    rcases List.mem_append.1 ht with ht | ht
    · have hno := has t ht
      rw [List.isPrefixOf_iff_prefix.2 hp] at hno
      cases hno
    · rcases List.mem_cons.1 ht with rfl | ht
      · exact Nat.le_refl _
      · exact (List.pairwise_cons.1 (List.pairwise_append.1 hsorted).2.1).1 t ht
  constructor
  · intro h
    have hp := List.find?_some h
    exact ⟨List.mem_of_find?_eq_some h, List.isPrefixOf_iff_prefix.1 hp, longest h⟩
  · rintro ⟨hmem, hp, hmax⟩
    rcases hf : Kind.symbols.find? (fun t => t.1.isPrefixOf cs) with _ | t
    · have hno := List.find?_eq_none.1 hf s hmem
      exact absurd (List.isPrefixOf_iff_prefix.2 hp) hno
    · have ht := List.mem_of_find?_eq_some hf
      have hb := List.find?_some hf
      have htp : t.1 <+: cs := List.isPrefixOf_iff_prefix.1 hb
      -- both are the longest sign that fits, and no sign stands twice
      have hlen : t.1.length = s.1.length := Nat.le_antisymm (hmax t ht htp) (longest hf s hmem hp)
      have hst : t.1 = s.1 := (List.prefix_of_prefix_length_le htp hp (Nat.le_of_eq hlen)).eq_of_length hlen
      rw [hf, List.inj_on_of_nodup_map symbols_nodup ht hmem hst]

/-- The characters that signs which begin with `l` go on with. -/
def followers (l : List Char) : List Char :=
  Kind.symbols.filterMap fun s => if l.isPrefixOf s.1 then s.1[l.length]? else none

theorem mem_followers {l e : List Char} {d : Char} {k : Kind}
    (h : (l ++ d :: e, k) ∈ Kind.symbols) : d ∈ followers l := by
  refine List.mem_filterMap.2 ⟨_, h, ?_⟩
  rw [if_pos (List.isPrefixOf_iff_prefix.2 (List.prefix_append _ _))]
  simp

/-- Whether `d` would make a longer sign of `l`, or the opening of a comment or a number. -/
def extendsSymbol (l : List Char) (d : Char) : Bool :=
  (followers l).contains d || (l == ['/'] && (d == '/' || d == '*')) || (l == ['.'] && d.isDigit)

/-- No sign that is longer than the one found begins the text `s.1 ++ r'`. -/
theorem length_le_of_cut {s t : List Char × Kind} {r r' : List Char} (ht : t ∈ Kind.symbols)
    (hmax : ∀ t ∈ Kind.symbols, t.1 <+: s.1 ++ r → t.1.length ≤ s.1.length)
    (hne : s.1 ≠ []) (hr : Cut (extendsSymbol s.1) r r') (htp : t.1 <+: s.1 ++ r') :
    t.1.length ≤ s.1.length := by
  refine Nat.le_of_not_lt fun hlt => ?_
  -- a longer sign reaches into the text behind
  obtain ⟨e, het⟩ := List.prefix_of_prefix_length_le (List.prefix_append _ _) htp (Nat.le_of_lt hlt)
  obtain ⟨d, e, rfl⟩ := List.exists_cons_of_ne_nil (l := e) (by rintro rfl; simp [← het] at hlt)
  obtain ⟨x, hx⟩ : d :: e <+: r' := by
    rw [← het] at htp
    exact (List.prefix_append_right_inj _).1 htp
  cases hr with
  | stop hstop =>
    have hno := hstop d (by simp [← hx])
    have hyes : d ∈ followers s.1 := mem_followers (e := e) (k := t.2) (het ▸ ht)
    simp [extendsSymbol, hyes] at hno
  | @cons c r1 r1' hr =>
    obtain rfl : d = c := (List.cons.inj hx).1
    have hmid : s.1 ++ [d] <+: s.1 ++ d :: r1 := ⟨r1, by simp⟩
    cases e with
    | nil =>
      -- it is one character longer, so it fits in front of the old text, too
      have := hmax t ht (het ▸ hmid)
      omega
    | cons x e =>
      -- it is two characters longer, and the sign between the two fits in front of the old text
      have h3 := symbols_length_le t ht
      have hpos := List.length_pos_iff.2 hne
      have hlen : t.1.length = s.1.length + (e.length + 2) := by rw [← het]; simp
      obtain rfl : e = [] := List.length_eq_zero_iff.1 (by omega)
      obtain ⟨u, hu, hut⟩ := List.mem_map.1 (symbols_between t ht (by omega))
      rw [← het, List.dropLast_append_cons] at hut
      have := hmax u hu (hut ▸ hmid)
      simp only [hut, List.dropLast_cons_cons, List.dropLast_singleton, List.length_append,
        List.length_singleton] at this
      omega

theorem symbol_cut {c : Char} {cs l r r' : List Char} {k : Kind}
    (h : symbol c cs = ⟨.token k, c :: l, r⟩) (hr : Cut (extendsSymbol (c :: l)) r r') :
    symbol c (l ++ r') = ⟨.token k, c :: l, r'⟩ := by
  have happ := (symbol_splits c cs).append
  rw [h] at happ
  rcases hs : Kind.symbols.find? (fun s => s.1.isPrefixOf (c :: cs)) with _ | s
  · simp [symbol, hs] at h
  · simp only [symbol, hs, Bite.mk.injEq, PieceKind.token.injEq] at h
    obtain ⟨rfl, hl, -⟩ := h
    obtain ⟨hmem, -, hmax⟩ := find?_symbols.1 hs
    rw [← happ, ← hl] at hmax
    rw [← hl] at hr
    have hnew : Kind.symbols.find? (fun s => s.1.isPrefixOf (c :: (l ++ r'))) = some s := by
      rw [← List.cons_append, ← hl]
      exact find?_symbols.2 ⟨hmem, List.prefix_append _ _, fun t ht htp =>
        length_le_of_cut ht hmax (by rw [hl]; simp) hr htp⟩
    simp only [symbol, hnew]
    rw [← List.cons_append, ← hl, List.drop_left]

/-! ## Tokens -/

/-- Whether the character `d` could belong to the token of which `l` is the text if it stood
right behind it. -/
def glued (l : List Char) (d : Char) : Bool :=
  match l with
  | [] => false
  | c :: cs =>
    if isWordStart c then isWordChar d
    else if c.isDigit || (c == '.' && cs.head?.any Char.isDigit) then isNumberChar d
    else extendsSymbol l d

theorem decimalNumber_point {d : Char} (hd : d.isDigit = true) (ds : List Char) :
    ∃ m, (decimalNumber ('.' :: d :: ds)).taken = '.' :: d :: m := by
  have h1 : ('.' :: d :: ds).takeWhile Char.isDigit = [] := List.takeWhile_cons_of_neg (by decide)
  have h2 : ('.' :: d :: ds).dropWhile Char.isDigit = '.' :: d :: ds :=
    List.dropWhile_cons_of_neg (by decide)
  simp only [decimalNumber, h1, h2, splitFraction, if_true, List.takeWhile_cons_of_pos hd]
  exact ⟨_, rfl⟩

/-- A number that begins with a point goes on with a digit. -/
theorem head_of_number {c : Char} {cs l r : List Char} {k : Kind}
    (h : number (c :: cs) = ⟨.token k, c :: l, r⟩)
    (hc : c.isDigit = true ∨ (c = '.' ∧ cs.head?.any Char.isDigit = true)) (r' : List Char) :
    c.isDigit = true ∨ (c = '.' ∧ (l ++ r').head?.any Char.isDigit = true) := by
  refine hc.imp_right ?_
  rintro ⟨rfl, hd⟩
  obtain ⟨d, ds, rfl⟩ : ∃ d ds, cs = d :: ds := by
    cases cs with
    | nil => simp at hd
    | cons d ds => exact ⟨d, ds, rfl⟩
  have hd' : d.isDigit = true := by simpa using hd
  rw [number_eq_decimalNumber (by simp [NoHex])] at h
  obtain ⟨m, hm⟩ := decimalNumber_point hd' ds
  rw [h] at hm
  obtain rfl : l = d :: m := (List.cons.inj hm).2
  simpa using hd'

theorem not_isWordStart_of_isDigit {c : Char} (h : c.isDigit = true) : isWordStart c = false := by
  have hne : c ≠ '_' := by rintro rfl; cases h
  have ha : c.isAlpha = false := by
    rw [isDigit_iff] at h
    rw [← Bool.not_eq_true, isAlpha_iff]
    omega
  simp [isWordStart, ha, hne]

theorem ne_of_isWordStart {c : Char} (h : isWordStart c = true) :
    c ≠ '/' ∧ ¬ (c = '"' ∨ c = '\'') ∧ c ≠ '#' ∧ c ≠ '.' ∧ c.isDigit = false := by
  refine ⟨?_, ?_, ?_, ?_, ?_⟩
  · rintro rfl; cases h
  · rintro (rfl | rfl) <;> cases h
  · rintro rfl; cases h
  · rintro rfl; cases h
  · cases hd : c.isDigit with
    | false => rfl
    | true => rw [not_isWordStart_of_isDigit hd] at h; cases h

theorem first_of_isWordStart {c : Char} (h : isWordStart c = true) (cs : List Char) :
    first c cs = word (c :: cs) := by
  obtain ⟨c1, c2, c3, c4, c5⟩ := ne_of_isWordStart h
  rw [first, if_neg (fun h => c1 h.1), if_neg (fun h => c1 h.1), if_neg c2, if_neg c3,
    if_neg (by simp [c4, c5]), if_pos h]

theorem ne_of_number {c : Char} (h : c.isDigit = true ∨ c = '.') :
    c ≠ '/' ∧ ¬ (c = '"' ∨ c = '\'') ∧ c ≠ '#' ∧ isWordStart c = false := by
  rcases h with h | rfl
  · refine ⟨?_, ?_, ?_, not_isWordStart_of_isDigit h⟩
    · rintro rfl; cases h
    · rintro (rfl | rfl) <;> cases h
    · rintro rfl; cases h
  · decide

/-- A number in front of another text. -/
theorem first_number_cut {c : Char} {cs l r r' : List Char} {k : Kind}
    (h : number (c :: cs) = ⟨.token k, c :: l, r⟩) (happ : l ++ r = cs)
    (hn : c.isDigit = true ∨ (c = '.' ∧ cs.head?.any Char.isDigit = true))
    (hr : Cut (glued (c :: l)) r r') : first c (l ++ r') = ⟨.token k, c :: l, r'⟩ := by
  obtain ⟨hslash, hquote, hsharp, hw⟩ := ne_of_number (hn.imp_right And.left)
  have hglue : glued (c :: l) = isNumberChar := by
    have hl := head_of_number h hn []
    rw [List.append_nil] at hl
    funext d
    simp [glued, hw, hl]
  rw [hglue] at hr
  rw [first, if_neg (fun h => hslash h.1), if_neg (fun h => hslash h.1), if_neg hquote,
    if_neg hsharp, if_pos (head_of_number h hn r')]
  exact number_cut h happ hr

/-- A symbol in front of another text. Its second character, or the one behind it if it has only
one, must not turn it into a comment or a number. -/
theorem first_symbol_cut {c : Char} {cs l r r' : List Char} {k : Kind}
    (h : symbol c cs = ⟨.token k, c :: l, r⟩) (happ : l ++ r = cs)
    (hline : ¬ (c = '/' ∧ cs.head? = some '/')) (hblock : ¬ (c = '/' ∧ cs.head? = some '*'))
    (hquote : ¬ (c = '"' ∨ c = '\'')) (hsharp : c ≠ '#')
    (hnumber : ¬ (c.isDigit = true ∨ (c = '.' ∧ cs.head?.any Char.isDigit = true)))
    (hword : ¬ isWordStart c = true) (hr : Cut (glued (c :: l)) r r') :
    first c (l ++ r') = ⟨.token k, c :: l, r'⟩ := by
  have hw : isWordStart c = false := by simpa using hword
  have hd : c.isDigit = false := by
    cases hd : c.isDigit with
    | false => rfl
    | true => exact absurd (Or.inl hd) hnumber
  have hpoint : c = '.' → ∀ d ∈ cs.head?, d.isDigit = false := by
    rintro rfl d hd
    cases hb : d.isDigit with
    | false => rfl
    | true => exact absurd (Or.inr ⟨rfl, by simp [Option.mem_def.1 hd, hb]⟩) hnumber
  have hglue : glued (c :: l) = extendsSymbol (c :: l) := by
    funext d
    simp only [glued, hw, hd, Bool.false_eq_true, if_false, Bool.false_or]
    rw [if_neg]
    cases l with
    | nil => simp
    | cons e l =>
      rw [← happ] at hpoint
      simpa using fun hc => hpoint hc e (by simp)
  rw [hglue] at hr
  -- what held of the next character still holds: it is the same one, or one that does not
  -- extend the sign `c`
  have hhead : ∀ Q : Char → Prop, (∀ d ∈ cs.head?, Q d) →
      (∀ d, extendsSymbol [c] d = false → Q d) → ∀ d ∈ (l ++ r').head?, Q d := by
    intro Q hq hgood
    cases l with
    | nil => exact hr.head (by rwa [← happ] at hq) hgood
    | cons e l =>
      rw [← happ] at hq
      simpa using hq
  have hline' : ¬ (c = '/' ∧ (l ++ r').head? = some '/') := by
    rintro ⟨rfl, hh⟩
    refine hhead (· ≠ '/') (fun d hd he => hline ⟨rfl, he ▸ hd⟩) ?_ '/' hh rfl
    rintro d hx rfl
    revert hx
    decide
  have hblock' : ¬ (c = '/' ∧ (l ++ r').head? = some '*') := by
    rintro ⟨rfl, hh⟩
    refine hhead (· ≠ '*') (fun d hd he => hblock ⟨rfl, he ▸ hd⟩) ?_ '*' hh rfl
    rintro d hx rfl
    revert hx
    decide
  have hnumber' : ¬ (c.isDigit = true ∨ (c = '.' ∧ (l ++ r').head?.any Char.isDigit = true)) := by
    rintro (hc | ⟨rfl, hh⟩)
    · rw [hd] at hc; cases hc
    · obtain ⟨d, hd', hdd⟩ := (Option.any_eq_true _ _).1 hh
      have hno := hhead (fun d => d.isDigit = false) (hpoint rfl) ?_ d hd'
      · rw [hno] at hdd; cases hdd
      · intro e he
        simpa [extendsSymbol] using (Bool.or_eq_false_iff.1 he).2
  rw [first, if_neg hline', if_neg hblock', if_neg hquote, if_neg hsharp, if_neg hnumber',
    if_neg hword]
  exact symbol_cut h hr

/-- A token in front of another text is read as the same token, if that text goes on in the same
way or with a character that could not belong to the token. -/
theorem first_cut {c : Char} {cs l r r' : List Char} {k : Kind}
    (h : first c cs = ⟨.token k, c :: l, r⟩) (hr : Cut (glued (c :: l)) r r') :
    first c (l ++ r') = ⟨.token k, c :: l, r'⟩ := by
  have happ : l ++ r = cs := by
    have hsplit := (first_splits c cs).append
    rw [h] at hsplit
    simpa using hsplit
  -- one case for each branch of `first`, in its order; comments are no tokens
  unfold first at h
  split at h
  · simp [lineComment] at h
  split at h
  · unfold blockComment at h
    split at h <;> simp at h
  split at h
  · next _ _ hq =>
    have hline : ¬ (c = '/' ∧ (l ++ r').head? = some '/') := by rintro ⟨rfl, -⟩; revert hq; decide
    have hblock : ¬ (c = '/' ∧ (l ++ r').head? = some '*') := by
      rintro ⟨rfl, -⟩; revert hq; decide
    rw [first, if_neg hline, if_neg hblock, if_pos hq]
    exact quoted_cut h r'
  split at h
  · next _ _ _ hsharp =>
    subst hsharp
    rw [first, if_neg (by simp), if_neg (by simp), if_neg (by simp), if_pos rfl]
    exact directive_cut h r'
  split at h
  · next hn => exact first_number_cut h happ hn hr
  split at h
  · next hw =>
    have hglue : glued (c :: l) = isWordChar := by
      funext d
      simp [glued, hw]
    rw [hglue] at hr
    rw [first_of_isWordStart hw]
    exact word_cut h hr
  · next hline hblock hquote hsharp hnumber hword =>
    exact first_symbol_cut h happ hline hblock hquote hsharp hnumber hword hr

/-! ## Breaks -/

/-- Whether a sign goes on with the character. -/
def continuesSymbol (d : Char) : Bool :=
  Kind.symbols.any fun s => s.1.tail.contains d

/-- Whether no token goes on with the character. -/
def isBreak (d : Char) : Bool :=
  !(isNumberChar d || continuesSymbol d || d == '/' || d == '*')

theorem extendsSymbol_eq_false {l : List Char} {d : Char} (hl : l ≠ [])
    (hd : continuesSymbol d = false) (hc : d ≠ '/' ∧ d ≠ '*')
    (hp : l ≠ ['.'] ∨ d.isDigit = false) : extendsSymbol l d = false := by
  have hs : d ∉ followers l := by
    intro hmem
    obtain ⟨s, hs, hsd⟩ := List.mem_filterMap.1 hmem
    split at hsd
    · next hp =>
      obtain ⟨x, hx⟩ := List.isPrefixOf_iff_prefix.1 hp
      rw [continuesSymbol, List.any_eq_false] at hd
      refine hd s hs ?_
      obtain ⟨c, cs, rfl⟩ := List.exists_cons_of_ne_nil hl
      rw [← hx] at hsd ⊢
      rw [List.cons_append, List.length_cons, List.getElem?_cons_succ] at hsd
      exact List.contains_iff_mem.2 (List.mem_of_getElem? hsd)
    · cases hsd
  simp only [extendsSymbol, List.contains_eq_mem, hs, decide_false, Bool.false_or]
  rcases hp with hp | hp <;> simp [hc, hp]

theorem isBreak_iff {d : Char} : isBreak d = true ↔
    isNumberChar d = false ∧ continuesSymbol d = false ∧ d ≠ '/' ∧ d ≠ '*' := by
  simp [isBreak, and_assoc]

theorem glued_of_isBreak {d : Char} (h : isBreak d = true) (l : List Char) :
    glued l d = false := by
  obtain ⟨hn, hs, hc⟩ := isBreak_iff.1 h
  have hw : isWordChar d = false := by
    simp only [isNumberChar, Bool.or_eq_false_iff] at hn
    exact hn.1.1.1
  have hd : d.isDigit = false := by
    cases hd : d.isDigit with
    | false => rfl
    | true => rw [isNumberChar_of_isDigit hd] at hn; cases hn
  cases l with
  | nil => rfl
  | cons c cs =>
    have he : extendsSymbol (c :: cs) d = false :=
      extendsSymbol_eq_false (by simp) hs hc (.inr hd)
    simp only [glued, hw, hn, he, ite_self]

/-! ## Comments -/

theorem splitCommentEnd_ne_nil {cs : List Char} {s : List Char × List Char}
    (h : splitCommentEnd cs = some s) : s.1 ≠ [] := by
  fun_cases splitCommentEnd cs with
  | case1 => cases h
  | case2 cs => cases h; simp
  | case3 c cs hne =>
    rw [splitCommentEnd] at h
    · obtain ⟨t, -, rfl⟩ := Option.map_eq_some_iff.1 h
      simp
    · exact hne

theorem splitCommentEnd_cut {cs : List Char} {s : List Char × List Char}
    (h : splitCommentEnd cs = some s) (r' : List Char) :
    splitCommentEnd (s.1 ++ r') = some (s.1, r') := by
  induction cs using splitCommentEnd.induct generalizing s with
  | case1 => cases h
  | case2 cs =>
    cases h
    rfl
  | case3 c cs hne ih =>
    rw [splitCommentEnd] at h
    · obtain ⟨t, ht, rfl⟩ := Option.map_eq_some_iff.1 h
      obtain ⟨d, ds, hds⟩ := List.exists_cons_of_ne_nil (splitCommentEnd_ne_nil ht)
      have happ := splitCommentEnd_append ht
      rw [hds, List.cons_append] at happ
      have hcut := ih ht
      rw [hds] at hcut ⊢
      rw [List.cons_append, splitCommentEnd, hcut]
      · rfl
      · rintro _ rfl he
        exact hne _ rfl (by rw [← happ, (List.cons.inj he).1])
    · exact hne

theorem includePath_kind (close : Char) (front cs : List Char) :
    (includePath close front cs).kind ≠ .comment := by
  unfold includePath
  dsimp only
  split
  · split <;> simp
  · simp

theorem directive_kind (cs : List Char) : (directive cs).kind ≠ .comment := by
  unfold directive
  split
  · dsimp only
    split
    · split
      · exact includePath_kind _ _ _
      · simp
    · simp
  · simp

theorem number_kind (cs : List Char) : (number cs).kind ≠ .comment := by
  unfold number
  split
  · split <;> simp [hexNumber, decimalNumber]
  · simp [decimalNumber]

theorem symbol_kind (c : Char) (cs : List Char) : (symbol c cs).kind ≠ .comment := by
  unfold symbol
  split <;> simp

theorem lineComment_cut {cs l r r' : List Char} (h : lineComment cs = ⟨.comment, l, r⟩)
    (hr : r'.head? = r.head? ∨ r'.head? = some '\n') :
    lineComment (l ++ r') = ⟨.comment, l, r'⟩ := by
  simp only [lineComment, Bite.mk.injEq, true_and] at h
  obtain ⟨rfl, rfl⟩ := h
  have hend : ∀ d ∈ r'.head?, (d != '\n') = false := by
    rcases hr with hr | hr
    · rw [hr]
      exact head_dropWhile cs
    · rw [hr]
      simp
  obtain ⟨h1, h2⟩ := takeWhile_eq_of (all_takeWhile cs) hend
  simp only [lineComment, h1, h2]

theorem blockComment_cut {cs l r : List Char} (h : blockComment cs = ⟨.comment, '/' :: '*' :: l, r⟩)
    (r' : List Char) : blockComment (l ++ r') = ⟨.comment, '/' :: '*' :: l, r'⟩ := by
  unfold blockComment at h
  split at h
  · next s hs =>
    simp only [Bite.mk.injEq, List.cons.injEq, true_and] at h
    obtain ⟨rfl, -⟩ := h
    simp only [blockComment, splitCommentEnd_cut hs r']
  · simp at h

/-- Two slashes begin a line comment, and the other comments are block comments. -/
theorem first_comment {c : Char} {cs l r : List Char} (h : first c cs = ⟨.comment, l, r⟩) :
    c = '/' ∧ ∃ ds, cs = '/' :: ds ∧ lineComment ('/' :: '/' :: ds) = ⟨.comment, l, r⟩ ∨
      cs = '*' :: ds ∧ blockComment ds = ⟨.comment, l, r⟩ := by
  unfold first at h
  split at h
  · next h1 =>
    obtain ⟨rfl, hcs⟩ := h1
    obtain ⟨ds, rfl⟩ := List.head?_eq_some_iff.1 hcs
    exact ⟨rfl, ds, .inl ⟨rfl, h⟩⟩
  split at h
  · next h2 =>
    obtain ⟨rfl, hcs⟩ := h2
    obtain ⟨ds, rfl⟩ := List.head?_eq_some_iff.1 hcs
    exact ⟨rfl, ds, .inr ⟨rfl, h⟩⟩
  -- nothing else gives a comment
  have hk : ∀ b : Bite, b.kind ≠ .comment → b ≠ ⟨.comment, l, r⟩ := by
    rintro b hb rfl
    exact hb rfl
  split at h
  · refine absurd h (hk _ ?_)
    simp only [quoted]
    split <;> simp
  split at h
  · exact absurd h (hk _ (directive_kind _))
  split at h
  · exact absurd h (hk _ (number_kind _))
  split at h
  · exact absurd h (hk _ (by simp [word]))
  · exact absurd h (hk _ (symbol_kind _ _))

/-- A comment in front of another text is read as the same comment, if that text begins with the
same character, both end there or the line ends there. -/
theorem first_comment_cut {c : Char} {cs l r r' : List Char}
    (h : first c cs = ⟨.comment, c :: l, r⟩) (hr : r'.head? = r.head? ∨ r'.head? = some '\n') :
    first c (l ++ r') = ⟨.comment, c :: l, r'⟩ := by
  obtain ⟨rfl, ds, ⟨rfl, hb⟩ | ⟨rfl, hb⟩⟩ := first_comment h
  · have hl : l = '/' :: l.tail := by
      simp only [lineComment, Bite.mk.injEq, true_and] at hb
      rw [← (List.cons.inj hb.1).2]
      rfl
    rw [hl] at hb ⊢
    rw [first, if_pos ⟨rfl, rfl⟩]
    exact lineComment_cut hb hr
  · have hl : l = '*' :: l.tail := by
      unfold blockComment at hb
      split at hb
      · simp only [Bite.mk.injEq, List.cons.injEq, true_and] at hb
        rw [← hb.1]
        rfl
      · simp at hb
    rw [hl] at hb ⊢
    rw [first, if_neg (by simp), if_pos ⟨rfl, rfl⟩]
    exact blockComment_cut hb r'

end Bite

end TemplateIdl
