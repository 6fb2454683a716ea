import TemplateIdl.Proofs.Token.Lexes

/-!
# Proper tokens — what the text of a token of each kind looks like

* `Token.Proper`, a token whose text is by itself a token of its kind, as all tokens of a text
  are (`LexesFrom.proper`);
* `isIdentifier`, the texts of identifiers, and `IsInteger`, those of integers;
* `eq_of_isTokenText`, keywords and signs have the text that is fixed for them;
* `Lexes.cons`, a proper token in front of a text.
-/

namespace TemplateIdl

/-- Whether a text is by itself a token of kind `k`. -/
def isTokenText (k : Kind) (s : String) : Bool :=
  match s.toList with
  | [] => false
  | c :: l => Bite.first c l == ⟨.token k, c :: l, []⟩

/-- By itself the text of the token is a token of its kind. -/
def Token.Proper (t : Token) : Prop := isTokenText t.kind t.lexeme = true

theorem isTokenText_iff {k : Kind} {s : String} :
    isTokenText k s = true ↔
      ∃ c l, s.toList = c :: l ∧ Bite.first c l = ⟨.token k, c :: l, []⟩ := by
  unfold isTokenText
  rcases hs : s.toList with _ | ⟨c, l⟩
  · simp
  · simp only [beq_iff_eq]
    constructor
    · exact fun h => ⟨c, l, rfl, h⟩
    · rintro ⟨_, _, he, h⟩
      obtain ⟨rfl, rfl⟩ := List.cons.inj he
      exact h

/-- What a scan takes for a token is that token by itself, too. -/
theorem isTokenText_of_scan {cs rest : List Char} {x : Piece} {k : Kind}
    (h : Piece.scan cs = some (x, rest)) (hk : x.kind = .token k) :
    isTokenText k (String.ofList x.body) = true := by
  obtain ⟨c, l, r, -, hl, hf⟩ := scan_eq_some h
  rw [hk] at hf
  have hcut := Bite.first_cut hf .nil
  rw [List.append_nil] at hcut
  exact isTokenText_iff.2 ⟨c, l, by simp [hl], hcut⟩

theorem LexesFrom.proper {gap cs : List Char} {ts : List Token} (h : LexesFrom gap cs ts) :
    ∀ t ∈ ts, t.Proper := by
  induction h with
  | done => simp
  | comment _ _ _ ih => exact ih
  | token hscan hk _ ih =>
    intro t ht
    rcases List.mem_cons.1 ht with rfl | ht
    · exact isTokenText_of_scan hscan hk
    · exact ih t ht

/-- All tokens of a text are proper, also if some of the text is no token. -/
theorem Lexed.proper_startingAt (cs : List Char) (p : Position) (gap : List Char) :
    ∀ t ∈ (startingAt p gap cs).tokens, t.kind ≠ .error → t.Proper := by
  induction cs using pieces.induct generalizing p gap with
  | case1 cs h => simp [startingAt_none h]
  | case2 cs x rest h ih =>
    cases hk : x.kind with
    | comment =>
      rw [startingAt_comment h hk]
      exact ih _ _
    | token k =>
      rw [startingAt_token h hk]
      exact List.forall_mem_cons.2 ⟨fun _ => isTokenText_of_scan h hk, ih _ _⟩
    | fault f =>
      rw [startingAt_fault h hk]
      exact List.forall_mem_cons.2 ⟨fun hne => absurd rfl hne, ih _ _⟩

namespace Bite

/-! ## The text of a token by its kind -/

/-- What the text `l` of a token of kind `k` can be. -/
inductive Shape (k : Kind) (l : List Char) : Prop
  | string (hk : k = .stringLiteral)
  | directive (hk : k = .includeDirective)
  | number (hk : k = .intLiteral ∨ k = .floatLiteral)
      (hd : k = .intLiteral → l.head?.any Char.isDigit = true)
  | word (hc : l.head?.any isWordStart = true) (hl : ∀ d ∈ l, isWordChar d = true)
      (hk : k = (keyword? (String.ofList l)).getD .identifier)
  | symbol (h : (l, k) ∈ Kind.symbols)

theorem directive_shape {cs l r : List Char} {k : Kind} (h : directive cs = ⟨.token k, l, r⟩) :
    k = .includeDirective := by
  unfold directive at h
  split at h
  · dsimp only at h
    split at h
    · split at h
      · unfold includePath at h
        dsimp only at h
        split at h
        · split at h
          · simp only [Bite.mk.injEq, PieceKind.token.injEq] at h
            exact h.1.symm
          · simp at h
        · simp at h
      · simp at h
    · simp at h
  · simp at h

theorem number_shape {cs l r : List Char} {k : Kind} (h : number cs = ⟨.token k, l, r⟩) :
    k = .intLiteral ∨ k = .floatLiteral := by
  have hdec : ∀ ds, decimalNumber ds = ⟨.token k, l, r⟩ → k = .intLiteral ∨ k = .floatLiteral := by
    intro ds hds
    simp only [decimalNumber, Bite.mk.injEq, PieceKind.token.injEq] at hds
    obtain ⟨rfl, -⟩ := hds
    split <;> simp
  unfold number at h
  split at h
  · split at h
    · simp only [hexNumber, Bite.mk.injEq, PieceKind.token.injEq] at h
      exact .inl h.1.symm
    · exact hdec _ h
  · exact hdec _ h

/-- A number that begins with a point is no integer. -/
theorem number_point {cs l r : List Char} {k : Kind}
    (h : number ('.' :: cs) = ⟨.token k, l, r⟩) : k = .floatLiteral := by
  have hp : ('.' :: cs).dropWhile Char.isDigit = '.' :: cs :=
    List.dropWhile_cons_of_neg (by decide)
  rw [number_eq_decimalNumber (by simp [NoHex])] at h
  simp only [decimalNumber, hp, splitFraction, Bite.mk.injEq, PieceKind.token.injEq] at h
  exact h.1.symm

theorem first_shape {c : Char} {cs l r : List Char} {k : Kind}
    (h : first c cs = ⟨.token k, l, r⟩) : Shape k l := by
  unfold first at h
  split at h
  · simp [lineComment] at h
  split at h
  · unfold blockComment at h
    split at h <;> simp at h
  split at h
  · simp only [quoted, Bite.mk.injEq] at h
    obtain ⟨hk, -⟩ := h
    split at hk
    · exact .string (by simpa using hk.symm)
    · cases hk
  split at h
  · exact .directive (directive_shape h)
  split at h
  · next hn =>
    -- an integer begins with its digit, since a number that begins with a point is none
    refine .number (number_shape h) ?_
    intro hk
    rcases hn with hn | ⟨rfl, -⟩
    · have hsplit : (number (c :: cs)).Splits (c :: cs) := number_splits (.inl hn)
      rw [h] at hsplit
      obtain ⟨d, ds, rfl⟩ := List.exists_cons_of_ne_nil hsplit.ne_nil
      obtain ⟨rfl, -⟩ := List.cons.inj hsplit.append
      simpa using hn
    · rw [number_point h] at hk
      cases hk
  split at h
  · next hw =>
    have hc := isWordChar_of_isWordStart hw
    simp only [word, List.takeWhile_cons_of_pos hc, Bite.mk.injEq, PieceKind.token.injEq] at h
    obtain ⟨rfl, rfl, -⟩ := h
    refine .word (by simpa using hw) ?_ rfl
    intro d hd
    rcases List.mem_cons.1 hd with rfl | hd
    · exact hc
    · exact all_takeWhile cs d hd
  · unfold symbol at h
    split at h
    · next s hs =>
      simp only [Bite.mk.injEq, PieceKind.token.injEq] at h
      obtain ⟨rfl, rfl, -⟩ := h
      exact .symbol (List.mem_of_find?_eq_some hs)
    · simp at h

theorem Shape.of_isTokenText {k : Kind} {s : String} (h : isTokenText k s = true) :
    Shape k s.toList := by
  obtain ⟨c, l, hs, hf⟩ := isTokenText_iff.1 h
  rw [hs]
  exact first_shape hf

/-- Tokens begin with a visible character. -/
theorem head_of_first {k : Kind} {c : Char} {cs l r : List Char}
    (h : first c cs = ⟨.token k, l, r⟩) : 33 ≤ c.toNat ∧ c.toNat ≤ 126 := by
  unfold first at h
  split at h
  · next hc => rw [hc.1]; decide
  split at h
  · next hc => rw [hc.1]; decide
  split at h
  · next hc => rcases hc with rfl | rfl <;> decide
  split at h
  · next hc => rw [hc]; decide
  split at h
  · next hc =>
    rcases hc with hc | ⟨rfl, -⟩
    · rw [isDigit_iff] at hc
      omega
    · decide
  split at h
  · next hc =>
    rw [isWordStart, Bool.or_eq_true, isAlpha_iff, beq_iff_eq] at hc
    rcases hc with hc | rfl
    · omega
    · decide
  · unfold symbol at h
    split at h
    · next s hs =>
      -- all characters of all signs are visible, the first one included
      have hp := List.find?_some hs
      obtain ⟨x, hx⟩ := List.isPrefixOf_iff_prefix.1 hp
      have hmem := List.mem_of_find?_eq_some hs
      have hvisible : ∀ s ∈ Kind.symbols,
          s.1.all (fun d => decide (33 ≤ d.toNat ∧ d.toNat ≤ 126)) = true := by decide
      refine of_decide_eq_true (List.all_eq_true.1 (hvisible s hmem) c ?_)
      obtain ⟨d, ds, hd⟩ := List.exists_cons_of_ne_nil (symbols_ne_nil s hmem)
      rw [hd, List.cons_append] at hx
      rw [hd, (List.cons.inj hx).1]
      exact List.mem_cons_self
    · simp at h

end Bite

/-! ## Identifiers and integers -/

/-- Whether a text is a word and no keyword. -/
def isIdentifier (s : String) : Bool :=
  s.toList.head?.any Bite.isWordStart && s.toList.all Bite.isWordChar && (keyword? s).isNone

theorem keyword?_eq_some {s : String} {k : Kind} (h : keyword? s = some k) :
    k ∈ Kind.keywords ∧ k.spelling = some s :=
  ⟨List.mem_of_find?_eq_some h, by simpa using List.find?_some h⟩

theorem isTokenText_identifier {s : String} :
    isTokenText .identifier s = true ↔ isIdentifier s = true := by
  constructor
  · intro h
    rcases Bite.Shape.of_isTokenText h with hk | hk | hk | ⟨hc, hl, hk⟩ | hmem
    · cases hk
    · cases hk
    · simp at hk
    · rw [String.ofList_toList] at hk
      have hno : keyword? s = none := by
        rcases hkw : keyword? s with _ | k
        · rfl
        · rw [hkw, Option.getD_some] at hk
          have hmem := (keyword?_eq_some hkw).1
          rw [← hk] at hmem
          exact absurd hmem (by decide)
      simp only [isIdentifier, hc, hno, Bool.true_and, Option.isNone_none, Bool.and_true,
        List.all_eq_true]
      exact hl
    · have hno : ∀ t ∈ Kind.symbols, t.2 ≠ .identifier := by decide
      exact absurd rfl (hno _ hmem)
  · intro h
    simp only [isIdentifier, Bool.and_eq_true, List.all_eq_true, Option.isNone_iff_eq_none] at h
    obtain ⟨⟨hc, hl⟩, hno⟩ := h
    obtain ⟨c, hhead, hc⟩ := (Option.any_eq_true _ _).1 hc
    obtain ⟨l, hs⟩ := List.head?_eq_some_iff.1 hhead
    rw [hs] at hl
    obtain ⟨h1, h2⟩ := Bite.takeWhile_eq_of (r := []) hl (by simp)
    rw [List.append_nil] at h1 h2
    refine isTokenText_iff.2 ⟨c, l, hs, ?_⟩
    rw [Bite.first_of_isWordStart hc]
    simp only [Bite.word, h1, h2]
    rw [← hs, String.ofList_toList, hno, Option.getD_none]

/-- A kind with a fixed spelling has no other text. -/
theorem eq_of_isTokenText {k : Kind} {s t : String} (h : isTokenText k s = true)
    (ht : k.spelling = some t) : s = t := by
  rcases Bite.Shape.of_isTokenText h with rfl | rfl | hk | ⟨-, -, hk⟩ | hmem
  · cases ht
  · cases ht
  · rcases hk with rfl | rfl <;> cases ht
  · rw [String.ofList_toList] at hk
    rcases hkw : keyword? s with _ | k'
    · rw [hkw, Option.getD_none] at hk
      subst hk
      cases ht
    · rw [hkw, Option.getD_some] at hk
      subst hk
      have hs := (keyword?_eq_some hkw).2
      rw [ht] at hs
      exact (Option.some.inj hs).symm
  · have hsign : ∀ s ∈ Kind.symbols, s.2.spelling.all (· == String.ofList s.1) = true := by decide
    have hst := hsign _ hmem
    rw [String.ofList_toList] at hst
    dsimp only at hst
    rw [ht, Option.all_some, beq_iff_eq] at hst
    exact hst.symm

/-- A kind with a fixed spelling has that text. -/
theorem isTokenText_spelling {k : Kind} {s : String} (h : k.spelling = some s) :
    isTokenText k s = true := by
  have hall : (k.spelling.all fun s => isTokenText k s) = true := by
    cases k <;> decide
  simpa [h] using hall

/-- The end of the file is no token of a text, and faults are none. -/
theorem kind_of_isTokenText {k : Kind} {s : String} (h : isTokenText k s = true) :
    k ≠ .eof ∧ k ≠ .error := by
  rcases Bite.Shape.of_isTokenText h with rfl | rfl | hk | ⟨-, -, hk⟩ | hmem
  · decide
  · decide
  · rcases hk with rfl | rfl <;> decide
  · rcases hkw : keyword? (String.ofList s.toList) with _ | k'
    · rw [hkw, Option.getD_none] at hk
      subst hk
      decide
    · rw [hkw, Option.getD_some] at hk
      subst hk
      have hmem := (keyword?_eq_some hkw).1
      have hno : ∀ k ∈ Kind.keywords, k ≠ .eof ∧ k ≠ .error := by decide
      exact hno k hmem
  · have hno : ∀ t ∈ Kind.symbols, t.2 ≠ .eof ∧ t.2 ≠ .error := by decide
    exact hno _ hmem

/-! ## One token in front of a text -/

theorem isBlank_of_visible {c : Char} (hc : 33 ≤ c.toNat ∧ c.toNat ≤ 126) : isBlank c = false := by
  have hout : ∀ r ∈ blankRanges, r.2 < 33 ∨ 126 < r.1 := by decide
  rw [isBlank, List.any_eq_false]
  intro r hr
  have := hout r hr
  simp only [Bool.and_eq_true, decide_eq_true_eq]
  omega

theorem splitBlank_blanks {b cs : List Char} {c : Char} (hb : ∀ d ∈ b, isBlank d = true)
    (hc : 33 ≤ c.toNat ∧ c.toNat ≤ 126) : splitBlank (b ++ c :: cs) = (b, c :: cs) := by
  have hblank := isBlank_of_visible hc
  obtain ⟨h1, h2⟩ := Bite.takeWhile_eq_of (r := c :: cs) hb (by simpa using hblank)
  cases b with
  | nil =>
    have hne : c ≠ '\uFEFF' := by
      rintro rfl
      exact absurd hc.2 (by decide)
    rw [List.nil_append] at h1 h2 ⊢
    rw [splitBlank, if_neg hne, h1, h2]
  | cons d b =>
    have hne : d ≠ '\uFEFF' := by
      rintro rfl
      have := hb '\uFEFF' (by simp)
      exact absurd this (by decide)
    rw [List.cons_append] at h1 h2 ⊢
    rw [splitBlank, if_neg hne, h1, h2]

theorem Lexes.nil : Lexes [] [] := .done rfl

/-- A proper token behind blanks, in front of a text that does not go on with it. -/
theorem Lexes.cons {t : Token} {cs : List Char} {ts : List Token} (ht : t.Proper)
    (hb : ∀ d ∈ t.gap.toList, isBlank d = true)
    (hg : ∀ d ∈ cs.head?, Bite.glued t.lexeme.toList d = false) (h : Lexes cs ts) :
    Lexes (t.gap.toList ++ (t.lexeme.toList ++ cs)) (t.bare :: ts) := by
  obtain ⟨c, l, hl, hf⟩ := isTokenText_iff.1 ht
  rw [hl] at hg ⊢
  have hscan : Piece.scan (t.gap.toList ++ (c :: (l ++ cs))) =
      some (⟨t.gap.toList, c :: l, .token t.kind⟩, cs) := by
    rw [Piece.scan, splitBlank_blanks hb (Bite.head_of_first hf)]
    simp only [Bite.first_cut hf (.stop hg)]
  have : LexesFrom [] (t.gap.toList ++ (c :: (l ++ cs))) _ := .token hscan rfl h
  rw [← hl, String.ofList_toList, List.nil_append, String.ofList_toList] at this
  rw [List.cons_append]
  exact this

/-- The text of a token is lexed as that token. -/
theorem ofSource_of_isTokenText {k : Kind} {s : String} (h : isTokenText k s = true) :
    (Lexed.ofSource s).errors = [] ∧
      ∃ t, (Lexed.ofSource s).tokens = [t] ∧ t.kind = k ∧ t.lexeme = s := by
  have hlex : Lexes s.toList [⟨k, s, "", default⟩] := by
    have := Lexes.cons (t := ⟨k, s, "", default⟩) h (by simp) (by simp) .nil
    simpa [Token.bare] using this
  obtain ⟨he, hts⟩ := (lexes_iff_ofSource s _).1 hlex
  obtain ⟨t, ht, hbare⟩ := List.map_eq_singleton_iff.1 hts
  exact ⟨he, t, ht, congrArg Token.kind hbare, congrArg Token.lexeme hbare⟩

/-! ## Integers -/

/-- A text is the text of a single integer. -/
def IsInteger (s : String) : Prop :=
  (Lexed.ofSource s).errors = [] ∧
    ∃ t, (Lexed.ofSource s).tokens = [t] ∧ t.kind = .intLiteral ∧ t.lexeme = s

theorem isInteger_iff {s : String} : IsInteger s ↔ isTokenText .intLiteral s = true := by
  constructor
  · rintro ⟨he, t, ht, hk, hl⟩
    have hlex := (lexes_iff_ofSource s [t.bare]).2 ⟨he, by rw [ht]; rfl⟩
    have hp := hlex.proper t.bare (by simp)
    rwa [Token.Proper, Token.bare, hk, hl] at hp
  · exact ofSource_of_isTokenText

/-- An integer begins with a digit. -/
theorem head_of_integer {s : String} (h : isTokenText .intLiteral s = true) :
    ∃ c l, s.toList = c :: l ∧ c.isDigit = true := by
  rcases Bite.Shape.of_isTokenText h with hk | hk | ⟨-, hd⟩ | ⟨-, -, hk⟩ | hmem
  · cases hk
  · cases hk
  · obtain ⟨c, hc, hdigit⟩ := (Option.any_eq_true _ _).1 (hd rfl)
    obtain ⟨l, hl⟩ := List.head?_eq_some_iff.1 hc
    exact ⟨c, l, hl, hdigit⟩
  · rcases hkw : keyword? (String.ofList s.toList) with _ | k
    · rw [hkw] at hk
      cases hk
    · rw [hkw, Option.getD_some] at hk
      have hmem := (keyword?_eq_some hkw).1
      rw [← hk] at hmem
      exact absurd hmem (by decide)
  · have hno : ∀ t ∈ Kind.symbols, t.2 ≠ .intLiteral := by decide
    exact absurd rfl (hno _ hmem)

end TemplateIdl
