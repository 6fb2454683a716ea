import TemplateIdl.Proofs.Decl.Places

/-!
# Brackets — where a default ends

The capture of a default keeps open brackets and open angle brackets on one stack. An angle bracket
is only put there if the search behind it finds its end, and the search counts more `<` than the
capture opens. So no angle bracket is left on the stack where the bracket around it closes, and the
end of a default is told by parentheses, square brackets, braces and commas alone.

* `nesting`, the brackets that are open behind some tokens, angle brackets left out, and `UpToEnd`,
  the tokens up to the place where a default has to end;
* `Turns`, the ways in which a token changes the stack;
* `AnglesClose`, all open angle brackets are closed by the tokens ahead, and
  `AnglesClose.openersAfter`, which each token of a default preserves;
* `exists_capture`, so a default ends at that place or at a comma outside of brackets;
* `Enclosed`, a comma among template arguments, and `enclosed_of_capture`, the only commas outside
  of brackets that a default contains;
* `closesAngle?`, the search with counters that cannot fall below zero, which is the same search;
* `Parse.defaultValue_ends`, what this means for the rule and the text that it gives.
-/

namespace TemplateIdl

open TokenStream

namespace DefaultValue

/-! ## Nesting -/

/-- The open brackets without the innermost one, which has to be `k`. -/
def closeInner (k : Kind) : List Kind → Option (List Kind)
  | [] => none
  | o :: opened => if o = k then some opened else none

/-- The parentheses, square brackets and braces that are open behind a token of kind `k`; none if it
closes one that is not the innermost one. -/
def bracketsAfter (opened : List Kind) (k : Kind) : Option (List Kind) :=
  match k with
  | .leftParen | .leftBracket | .leftBrace => some (k :: opened)
  | .rightParen => closeInner .leftParen opened
  | .rightBracket => closeInner .leftBracket opened
  | .rightBrace => closeInner .leftBrace opened
  | _ => some opened

/-- The same behind several tokens. -/
def nesting (opened : List Kind) : List Token → Option (List Kind)
  | [] => some opened
  | t :: ts => (bracketsAfter opened t.kind).bind fun o => nesting o ts

/-- Brackets nest in the tokens, and all of them are closed: what follows stands outside of them. -/
def Balanced (ts : List Token) : Prop := nesting [] ts = some []

instance (ts : List Token) : Decidable (Balanced ts) :=
  inferInstanceAs (Decidable (_ = _))

/-- Where the brackets `opened` are open, the tokens `front` close them, with properly nested
brackets between. Behind `front`, and nowhere in it, there is a closing parenthesis or a semicolon
outside of all brackets, or the end of the file. -/
structure UpToEnd (opened : List Kind) (front rest : List Token) : Prop where
  nested : nesting opened front = some []
  first : ∀ i (h : i < front.length), nesting opened (front.take i) = some [] →
    front[i].kind ≠ .rightParen ∧ front[i].kind ≠ .semicolon
  stop : ∀ t ∈ rest.head?, t.kind = .rightParen ∨ t.kind = .semicolon

instance (opened : List Kind) (front rest : List Token) : Decidable (UpToEnd opened front rest) :=
  decidable_of_iff
    (nesting opened front = some [] ∧
      (∀ i (h : i < front.length), nesting opened (front.take i) = some [] →
        front[i].kind ≠ .rightParen ∧ front[i].kind ≠ .semicolon) ∧
      ∀ t ∈ rest.head?, t.kind = .rightParen ∨ t.kind = .semicolon)
    ⟨fun h => ⟨h.1, h.2.1, h.2.2⟩, fun h => ⟨h.nested, h.first, h.stop⟩⟩

variable {opened openers openers' : List Kind} {last? : Option Kind} {t : Token}
  {front rest ts us ds : List Token}

theorem nesting_cons {o : List Kind} (h : bracketsAfter opened t.kind = some o) (ts : List Token) :
    nesting opened (t :: ts) = nesting o ts := by
  rw [nesting, h]
  rfl

theorem nesting_append (ts us : List Token) :
    nesting opened (ts ++ us) = (nesting opened ts).bind fun o => nesting o us := by
  induction ts generalizing opened with
  | nil => rfl
  | cons t ts ih =>
    rw [List.cons_append, nesting, nesting]
    cases bracketsAfter opened t.kind with
    | none => rfl
    | some o => exact ih

theorem UpToEnd.tail (h : UpToEnd opened (t :: ts) rest) :
    ∃ o, bracketsAfter opened t.kind = some o ∧ UpToEnd o ts rest := by
  have hnested := h.nested
  rw [nesting, Option.bind_eq_some_iff] at hnested
  obtain ⟨o, ho, hts⟩ := hnested
  refine ⟨o, ho, hts, ?_, h.stop⟩
  intro i hi hopen
  have hlt : i + 1 < (t :: ts).length := Nat.succ_lt_succ hi
  apply h.first (i + 1) hlt
  rw [List.take_succ_cons, nesting_cons ho]
  exact hopen

/-! ## The stack of a capture -/

/-- The open brackets that are no angle brackets. -/
def bracketsOf (openers : List Kind) : List Kind := openers.filter (· != .less)

theorem bracketsOf_less (openers : List Kind) :
    bracketsOf (.less :: openers) = bracketsOf openers :=
  List.filter_cons_of_neg (by decide)

theorem bracketsOf_cons {k : Kind} (h : k ≠ .less) (openers : List Kind) :
    bracketsOf (k :: openers) = k :: bracketsOf openers :=
  List.filter_cons_of_pos (by simpa using h)

theorem bracketsOf_dropAngle (openers : List Kind) :
    bracketsOf (dropAngle openers) = bracketsOf openers := by
  unfold dropAngle
  split
  · exact (bracketsOf_less _).symm
  · rfl

theorem closeBracket_less (k : Kind) (openers : List Kind) :
    closeBracket k (.less :: openers) = closeBracket k openers := rfl

theorem closeBracket_cons {k o : Kind} (h : o ≠ .less) (openers : List Kind) :
    closeBracket k (o :: openers) = if o = k then some openers else none := by
  have hdrop : (o :: openers).dropWhile (· == .less) = o :: openers :=
    List.dropWhile_cons_of_neg (by simpa using h)
  rw [closeBracket, hdrop]

theorem map_bracketsOf_closeBracket (k : Kind) (openers : List Kind) :
    (closeBracket k openers).map bracketsOf = closeInner k (bracketsOf openers) := by
  induction openers with
  | nil => rfl
  | cons o openers ih =>
    by_cases ho : o = .less
    · subst ho
      rw [closeBracket_less, bracketsOf_less]
      exact ih
    · rw [closeBracket_cons ho, bracketsOf_cons ho, closeInner]
      split
      · rfl
      · rfl

/-- Angle brackets change nothing for the other brackets. -/
theorem map_bracketsOf_openersAfter (openers : List Kind) (last? : Option Kind) (t : Token)
    (rest : List Token) :
    (openersAfter openers last? t rest).map bracketsOf =
      bracketsAfter (bracketsOf openers) t.kind := by
  have hopen : ∀ k : Kind, k ≠ .less →
      (some (k :: openers)).map bracketsOf = some (k :: bracketsOf openers) := by
    intro k hk
    rw [Option.map_some, bracketsOf_cons hk]
  unfold openersAfter
  split
  · next hk => rw [hk]; exact hopen _ (by decide)
  · next hk => rw [hk]; exact hopen _ (by decide)
  · next hk => rw [hk]; exact hopen _ (by decide)
  · next hk =>
    rw [hk]
    split
    · rw [Option.map_some, bracketsOf_less]; rfl
    · rfl
  · next hk => rw [hk]; exact map_bracketsOf_closeBracket _ _
  · next hk => rw [hk]; exact map_bracketsOf_closeBracket _ _
  · next hk => rw [hk]; exact map_bracketsOf_closeBracket _ _
  · next hk => rw [hk, Option.map_some, bracketsOf_dropAngle]; rfl
  · next hk => rw [hk, Option.map_some, bracketsOf_dropAngle, bracketsOf_dropAngle]; rfl
  · rw [Option.map_some]
    unfold bracketsAfter
    split <;> first | rfl | contradiction

/-- What is open behind a token of properly nested tokens. -/
theorem exists_openersAfter {o : List Kind}
    (h : bracketsAfter (bracketsOf openers) t.kind = some o) (last? : Option Kind)
    (rest : List Token) :
    ∃ openers', openersAfter openers last? t rest = some openers' ∧ bracketsOf openers' = o := by
  rw [← map_bracketsOf_openersAfter openers last? t rest] at h
  exact Option.map_eq_some_iff.1 h

/-- What a token of a default does to the open brackets. -/
inductive Turns (openers : List Kind) (last? : Option Kind) (t : Token) (rest : List Token) :
    List Kind → Prop
  /-- It opens a bracket. -/
  | opens (hk : t.kind = .leftParen ∨ t.kind = .leftBracket ∨ t.kind = .leftBrace) :
      Turns openers last? t rest (t.kind :: openers)
  /-- It opens template arguments. -/
  | angle (hk : t.kind = .less) (hlast : last? = some .identifier)
      (hclose : closesAngle 1 0 rest = true) : Turns openers last? t rest (.less :: openers)
  /-- It closes a bracket. -/
  | closes {k : Kind} {openers' : List Kind}
      (hk : t.kind = .rightParen ∨ t.kind = .rightBracket ∨ t.kind = .rightBrace)
      (h : closeBracket k openers = some openers') : Turns openers last? t rest openers'
  /-- It closes an angle bracket, if one is open, and a shift closes up to two. -/
  | greater (hk : t.kind = .greater) : Turns openers last? t rest (dropAngle openers)
  | shift (hk : t.kind = .greaterGreater) :
      Turns openers last? t rest (dropAngle (dropAngle openers))
  /-- It is a comparison or no bracket. -/
  | keeps (hk : t.kind ∉ [.leftParen, .leftBracket, .leftBrace, .rightParen, .rightBracket,
      .rightBrace, .greater, .greaterGreater]) : Turns openers last? t rest openers

theorem turns_of_openersAfter (h : openersAfter openers last? t rest = some openers') :
    Turns openers last? t rest openers' := by
  unfold openersAfter at h
  split at h
  · next hk => cases h; exact .opens (.inl hk)
  · next hk => cases h; exact .opens (.inr (.inl hk))
  · next hk => cases h; exact .opens (.inr (.inr hk))
  · next hk =>
    split at h
    · next hopens => cases h; exact .angle hk hopens.1 hopens.2
    · cases h; exact .keeps (by rw [hk]; decide)
  · next hk => exact .closes (.inl hk) h
  · next hk => exact .closes (.inr (.inl hk)) h
  · next hk => exact .closes (.inr (.inr hk)) h
  · next hk => cases h; exact .greater hk
  · next hk => cases h; exact .shift hk
  · cases h
    refine .keeps ?_
    simp only [List.mem_cons, List.not_mem_nil, or_false, not_or]
    tauto

/-! ## Angle brackets close -/

/-- So many open angle brackets, in which `b` other brackets have been opened since, are all closed;
there is nothing to close without one. -/
def Closes (n b : Nat) (ts : List Token) : Prop := n = 0 ∨ closesAngle n b ts = true

/-- All open angle brackets are closed: those on the stack, and `n` more in front of `b` other
brackets. -/
def AnglesClose (n b : Nat) : List Kind → List Token → Prop
  | [], ts => Closes n b ts
  | k :: openers, ts =>
    if k = .less then AnglesClose (n + 1) b openers ts
    else Closes n b ts ∧ AnglesClose 0 (b + 1) openers ts

theorem closesAngle_cons {a b : Nat} :
    closesAngle a b (t :: ts) = true ↔
      ∃ a' b', angleStep a b t.kind = some (a', b') ∧ Closes a' b' ts := by
  rw [closesAngle]
  rcases hstep : angleStep a b t.kind with _ | ⟨a', b'⟩
  · simp
  · cases a' with
    | zero => simp [Closes]
    | succ a' => simp [Closes]

/-- With fewer angle brackets to close, a step leaves fewer of them. -/
theorem angleStep_mono {m n n' b b' : Nat} {k : Kind} (hmn : m ≤ n)
    (h : angleStep n b k = some (n', b')) : ∃ m', angleStep m b k = some (m', b') ∧ m' ≤ n' := by
  unfold angleStep at h ⊢
  split at h <;> grind

theorem Closes.mono {m n b : Nat} (h : Closes n b ts) (hmn : m ≤ n) : Closes m b ts := by
  induction ts generalizing m n b with
  | nil =>
    have hn : n = 0 := h.resolve_right (by simp [closesAngle])
    exact .inl (by omega)
  | cons t ts ih =>
    rcases h with hn | h
    · exact .inl (by omega)
    · obtain ⟨a', b', hstep, hcloses⟩ := closesAngle_cons.1 h
      obtain ⟨m', hm', hle⟩ := angleStep_mono hmn hstep
      exact .inr (closesAngle_cons.2 ⟨m', b', hm', ih hcloses hle⟩)

/-- What holds of the counts on each level holds of the stack. -/
theorem AnglesClose.imp {m n b b' : Nat} (hinner : ∀ j, Closes (n + j) b ts → Closes (m + j) b' us)
    (houter : ∀ j c, Closes j (b + 1 + c) ts → Closes j (b' + 1 + c) us)
    (h : AnglesClose n b openers ts) : AnglesClose m b' openers us := by
  induction openers generalizing m n b b' with
  | nil => exact hinner 0 h
  | cons k openers ih =>
    unfold AnglesClose at h ⊢
    split at h
    · next hk =>
      rw [if_pos hk]
      refine ih ?_ houter h
      intro j hj
      rw [Nat.add_right_comm] at hj ⊢
      exact hinner (j + 1) hj
    · next hk =>
      rw [if_neg hk]
      refine ⟨hinner 0 h.1, ih ?_ ?_ h.2⟩
      · intro j hj
        rw [Nat.zero_add] at hj ⊢
        exact houter j 0 hj
      · intro j c hj
        have hshift : ∀ x : Nat, x + 1 + 1 + c = x + 1 + (c + 1) := by intro x; omega
        rw [hshift] at hj ⊢
        exact houter j (c + 1) hj

/-- The step of the search past a token, on the level where `n` angle brackets become `m`, and on
the levels around it. -/
theorem AnglesClose.next {m n b b' : Nat} (hzero : n = 0 → Closes m b' ts)
    (hinner : ∀ j a c, angleStep (n + j) b t.kind = some (a, c) → m + j ≤ a ∧ b' = c)
    (houter : ∀ j d a c, angleStep j (b + 1 + d) t.kind = some (a, c) → j ≤ a ∧ b' + 1 + d = c)
    (h : AnglesClose n b openers (t :: ts)) : AnglesClose m b' openers ts := by
  refine h.imp ?_ ?_
  · intro j hj
    rcases hj with hj | hj
    · obtain ⟨rfl, rfl⟩ : n = 0 ∧ j = 0 := by omega
      exact hzero rfl
    · obtain ⟨a, c, hstep, hcloses⟩ := closesAngle_cons.1 hj
      obtain ⟨hle, rfl⟩ := hinner j a c hstep
      exact hcloses.mono hle
  · intro j d hj
    rcases hj with hj | hj
    · exact .inl hj
    · obtain ⟨a, c, hstep, hcloses⟩ := closesAngle_cons.1 hj
      obtain ⟨hle, rfl⟩ := houter j d a c hstep
      exact hcloses.mono hle

/-- Behind an opened bracket, angle brackets begin anew. -/
theorem AnglesClose.open_bracket
    (hk : t.kind = .leftParen ∨ t.kind = .leftBracket ∨ t.kind = .leftBrace)
    (h : AnglesClose 0 0 openers (t :: ts)) : AnglesClose 0 0 (t.kind :: openers) ts := by
  have hstep : ∀ a b, angleStep a b t.kind = some (a, b + 1) := by
    intro a b
    rcases hk with hk | hk | hk <;> rw [hk] <;> rfl
  have hne : t.kind ≠ .less := by
    rcases hk with hk | hk | hk <;> rw [hk] <;> decide
  rw [AnglesClose, if_neg hne]
  refine ⟨.inl rfl, h.next (fun _ => .inl rfl) ?_ ?_⟩
  · grind
  · grind

theorem AnglesClose.close_bracket {n : Nat} {k : Kind}
    (hk : t.kind = .rightParen ∨ t.kind = .rightBracket ∨ t.kind = .rightBrace)
    (h : AnglesClose n 0 openers (t :: ts)) (hclose : closeBracket k openers = some openers') :
    AnglesClose 0 0 openers' ts := by
  have hstep : ∀ a b, angleStep a (b + 1) t.kind = some (a, b) := by
    intro a b
    rcases hk with hk | hk | hk <;> rw [hk] <;> rfl
  induction openers generalizing n with
  | nil => cases hclose
  | cons o openers ih =>
    by_cases ho : o = .less
    · subst ho
      rw [AnglesClose, if_pos rfl] at h
      exact ih h hclose
    · rw [closeBracket_cons ho] at hclose
      rw [AnglesClose, if_neg ho] at h
      split at hclose
      · cases hclose
        refine h.2.next (fun _ => .inl rfl) ?_ ?_
        · grind
        · grind
      · cases hclose

theorem AnglesClose.less (hk : t.kind = .less) (h : AnglesClose 0 0 openers (t :: ts))
    (hclose : closesAngle 1 0 ts = true) : AnglesClose 0 0 (.less :: openers) ts := by
  rw [AnglesClose, if_pos rfl]
  refine h.next (fun _ => .inr hclose) ?_ ?_
  · grind [angleStep]
  · grind [angleStep]

theorem AnglesClose.greater (hk : t.kind = .greater) (h : AnglesClose 0 0 openers (t :: ts)) :
    AnglesClose 0 0 (dropAngle openers) ts := by
  have houter : ∀ j d a c, angleStep j (d + 1) t.kind = some (a, c) → j ≤ a ∧ d + 1 = c := by
    grind [angleStep]
  cases openers with
  | nil => exact .inl rfl
  | cons o openers =>
    by_cases ho : o = .less
    · subst ho
      rw [AnglesClose, if_pos rfl] at h
      refine h.next (by simp) ?_ ?_
      · grind [angleStep]
      · grind
    · have hdrop : dropAngle (o :: openers) = o :: openers := by
        unfold dropAngle
        split
        · next heq => exact absurd (List.cons.inj heq).1 ho
        · rfl
      rw [AnglesClose, if_neg ho] at h
      rw [hdrop, AnglesClose, if_neg ho]
      refine ⟨.inl rfl, h.2.next (fun _ => .inl rfl) ?_ ?_⟩
      · grind
      · grind

theorem AnglesClose.shift (hk : t.kind = .greaterGreater)
    (h : AnglesClose 0 0 openers (t :: ts)) :
    AnglesClose 0 0 (dropAngle (dropAngle openers)) ts := by
  have htwo : ∀ j b, Closes j b (t :: ts) → Closes j b (closer "" :: closer "" :: ts) := by
    intro j b hj
    cases j with
    | zero => exact .inl rfl
    | succ j =>
      have hself : Spells ts ts := by simpa using Spells.append_same ts .nil
      have hspells : Spells (⟨.greaterGreater, ">>", "", t.span⟩ :: ts)
          (closer "" :: closer "" :: ts) := .shift rfl rfl hself
      have heq := (closesAngle_of_kind hk (j + 1) b ts).trans (hspells.closesAngle_eq j b)
      exact hj.imp_right fun hj => heq.symm.trans hj
  have hfirst : AnglesClose 0 0 openers (closer "" :: closer "" :: ts) :=
    h.imp (fun j hj => htwo _ _ hj) fun j c hj => htwo _ _ hj
  exact (hfirst.greater rfl).greater rfl

/-- Reading a token of a default keeps all open angle brackets closed. -/
theorem AnglesClose.openersAfter (h : AnglesClose 0 0 openers (t :: ts))
    (ho : openersAfter openers last? t ts = some openers') : AnglesClose 0 0 openers' ts := by
  cases turns_of_openersAfter ho with
  | opens hk => exact h.open_bracket hk
  | angle hk _ hclose => exact h.less hk hclose
  | closes hk hopeners => exact h.close_bracket hk hopeners
  | greater hk => exact h.greater hk
  | shift hk => exact h.shift hk
  | keeps hk =>
    have hstep : ∀ a b a' b', angleStep a b t.kind = some (a', b') → a ≤ a' ∧ b = b' := by
      intro a b a' b' hs
      by_cases hless : t.kind = .less
      · -- what is a comparison here, the search counts
        grind [angleStep]
      · by_cases hsemicolon : t.kind = .semicolon
        · rw [hsemicolon] at hs
          cases hs
        · grind [angleStep]
    exact h.next (fun _ => .inl rfl) (fun _ _ _ => hstep _ _ _ _) fun _ _ _ _ => hstep _ _ _ _

/-- Where the bracket around them closes or the declaration ends, no angle bracket is open. -/
theorem AnglesClose.openers_eq_nil {n : Nat} (h : AnglesClose n 0 openers rest)
    (hplain : bracketsOf openers = [])
    (hstop : ∀ t ∈ rest.head?, t.kind = .rightParen ∨ t.kind = .semicolon) :
    n = 0 ∧ openers = [] := by
  induction openers generalizing n with
  | nil =>
    refine ⟨h.resolve_right ?_, rfl⟩
    cases rest with
    | nil => exact Bool.false_ne_true
    | cons t ts =>
      rw [closesAngle_stop (hstop t rfl)]
      exact Bool.false_ne_true
  | cons o openers ih =>
    by_cases ho : o = .less
    · subst ho
      rw [AnglesClose, if_pos rfl] at h
      rw [bracketsOf_less] at hplain
      exact absurd (ih h hplain).1 (Nat.succ_ne_zero n)
    · rw [bracketsOf_cons ho] at hplain
      cases hplain

/-! ## The end of a default -/

theorem capture_eq_nil (h : openers.isEmpty && isEnd t.kind) :
    capture openers last? (t :: ts) = .ok [] := by
  rw [capture, if_pos h]

/-- With nested brackets, a default reaches to the place where it has to end, or to a comma outside
of brackets. -/
theorem exists_capture (h : UpToEnd (bracketsOf openers) front rest)
    (hclose : AnglesClose 0 0 openers (front ++ rest)) (last? : Option Kind) :
    ∃ ds after, front = ds ++ after ∧ capture openers last? (front ++ rest) = .ok ds ∧
      (after = [] ∨ headKind after = .comma ∧ nesting (bracketsOf openers) ds = some []) := by
  induction front generalizing openers last? with
  | nil =>
    -- no bracket is open, and so no angle bracket either
    have hplain : bracketsOf openers = [] := Option.some.inj h.nested
    obtain ⟨-, rfl⟩ := hclose.openers_eq_nil hplain h.stop
    refine ⟨[], [], rfl, ?_, .inl rfl⟩
    cases rest with
    | nil => rfl
    | cons t ts =>
      apply capture_eq_nil
      rcases h.stop t rfl with hk | hk <;> rw [hk] <;> rfl
  | cons t ts ih =>
    by_cases hend : openers.isEmpty && isEnd t.kind
    · -- of the tokens that end a default only a comma can stand here
      rw [Bool.and_eq_true, List.isEmpty_iff] at hend
      obtain ⟨rfl, hkind⟩ := hend
      obtain ⟨hparen, hsemicolon⟩ := h.first 0 (Nat.succ_pos _) rfl
      have hcomma : t.kind = .comma := by
        rw [isEnd, Bool.or_eq_true, Bool.or_eq_true, beq_iff_eq, beq_iff_eq, beq_iff_eq] at hkind
        exact (hkind.resolve_right hparen).resolve_right hsemicolon
      refine ⟨[], t :: ts, rfl, capture_eq_nil ?_, .inr ⟨hcomma, rfl⟩⟩
      rw [hcomma]
      rfl
    · obtain ⟨o, ho, hrest⟩ := h.tail
      obtain ⟨openers', hopeners, rfl⟩ := exists_openersAfter ho last? (ts ++ rest)
      have hclose' : AnglesClose 0 0 openers' (ts ++ rest) := hclose.openersAfter hopeners
      obtain ⟨ds, after, hts, hcapture, hafter⟩ := ih hrest hclose' (some t.kind)
      refine ⟨t :: ds, after, by rw [hts]; rfl, ?_, ?_⟩
      · exact capture_cons (Bool.eq_false_iff.2 hend) hopeners hcapture
      · rw [nesting_cons ho]
        exact hafter

/-! ## Commas in a default -/

/-- A comma with template arguments around it: in front of it a `<` stands directly behind an
identifier, and behind it there is a `>` or a `>>`, both outside of all other brackets. -/
structure Enclosed (before : List Token) (comma : Token) (behind : List Token) : Prop where
  opened : ∃ us i l vs, before = us ++ i :: l :: vs ∧ i.kind = .identifier ∧ l.kind = .less ∧
    Balanced (us ++ [i])
  closed : ∃ us g vs, behind = us ++ g :: vs ∧ (g.kind = .greater ∨ g.kind = .greaterGreater) ∧
    Balanced (before ++ comma :: us)

theorem getLast?_cons {k : Kind} (h : openers ≠ []) :
    (k :: openers).getLast? = openers.getLast? := by
  obtain ⟨o, os, rfl⟩ := List.exists_cons_of_ne_nil h
  exact List.getLast?_cons_cons

/-- Brackets of which none is open but angle brackets. -/
theorem getLast?_of_bracketsOf (h : bracketsOf openers = []) (hne : openers ≠ []) :
    openers.getLast? = some .less := by
  have hlast := List.getLast_mem hne
  rw [List.getLast?_eq_some_getLast hne, Option.some.injEq]
  by_contra hk
  have hmem : openers.getLast hne ∈ bracketsOf openers :=
    List.mem_filter.2 ⟨hlast, by simpa using hk⟩
  rw [h] at hmem
  cases hmem

theorem isSuffix_dropAngle (openers : List Kind) : dropAngle openers <:+ openers := by
  unfold dropAngle
  split
  · exact List.suffix_cons _ _
  · exact List.suffix_rfl

theorem isSuffix_of_closeBracket {k : Kind} (h : closeBracket k openers = some openers') :
    openers' <:+ openers := by
  induction openers with
  | nil => cases h
  | cons o openers ih =>
    by_cases ho : o = .less
    · subst ho
      exact (ih h).trans (List.suffix_cons _ _)
    · rw [closeBracket_cons ho] at h
      split at h
      · cases h
        exact List.suffix_cons _ _
      · cases h

/-- The outermost bracket has been the outermost one before, or is put on an empty stack. -/
theorem getLast?_openersAfter (ho : openersAfter openers last? t rest = some openers')
    (h : openers'.getLast? = some .less) :
    openers.getLast? = some .less ∨
      (openers = [] ∧ t.kind = .less ∧ last? = some .identifier) := by
  have hsuffix : openers' <:+ openers → openers.getLast? = some .less := by
    rintro ⟨os, rfl⟩
    rw [List.getLast?_append, h]
    rfl
  cases turns_of_openersAfter ho with
  | opens hk =>
    have hne : t.kind ≠ .less := by
      rcases hk with hk | hk | hk <;> rw [hk] <;> decide
    by_cases hnil : openers = []
    · rw [hnil, List.getLast?_singleton, Option.some.injEq] at h
      exact absurd h hne
    · rw [getLast?_cons hnil] at h
      exact .inl h
  | angle hk hlast _ =>
    by_cases hnil : openers = []
    · exact .inr ⟨hnil, hk, hlast⟩
    · rw [getLast?_cons hnil] at h
      exact .inl h
  | closes _ hopeners => exact .inl (hsuffix (isSuffix_of_closeBracket hopeners))
  | greater _ => exact .inl (hsuffix (isSuffix_dropAngle _))
  | shift _ => exact .inl (hsuffix ((isSuffix_dropAngle _).trans (isSuffix_dropAngle _)))
  | keeps _ => exact .inl h

theorem getLast?_closeBracket {k : Kind} (h : closeBracket k openers = some openers')
    (hlast : openers.getLast? = some .less) :
    openers'.getLast? = some .less := by
  induction openers with
  | nil => cases h
  | cons o openers ih =>
    by_cases hnil : openers = []
    · -- the only bracket is closed, which is no angle bracket
      rw [hnil, List.getLast?_singleton, Option.some.injEq] at hlast
      rw [hnil, hlast] at h
      cases h
    · rw [getLast?_cons hnil] at hlast
      by_cases ho : o = .less
      · subst ho
        exact ih h hlast
      · rw [closeBracket_cons ho] at h
        split at h
        · cases h
          exact hlast
        · cases h

theorem getLast?_dropAngle (h : openers.getLast? = some .less) :
    (dropAngle openers).getLast? = some .less ∨ bracketsOf openers = [] := by
  unfold dropAngle
  split
  · next openers =>
    by_cases hnil : openers = []
    · rw [hnil]
      exact .inr rfl
    · rw [getLast?_cons hnil] at h
      exact .inl h
  · exact .inl h

/-- The outermost bracket stays until a closing angle bracket outside of all other brackets closes
it. -/
theorem getLast?_openersAfter_of_less (ho : openersAfter openers last? t rest = some openers')
    (h : openers.getLast? = some .less) :
    openers'.getLast? = some .less ∨
      ((t.kind = .greater ∨ t.kind = .greaterGreater) ∧ bracketsOf openers = []) := by
  have hne : openers ≠ [] := by
    rintro rfl
    cases h
  cases turns_of_openersAfter ho with
  | opens _ => exact .inl ((getLast?_cons hne).trans h)
  | angle _ _ _ => exact .inl ((getLast?_cons hne).trans h)
  | closes _ hopeners => exact .inl (getLast?_closeBracket hopeners h)
  | greater hk => exact (getLast?_dropAngle h).imp_right fun hplain => ⟨.inl hk, hplain⟩
  | shift hk =>
    rcases getLast?_dropAngle h with hfirst | hplain
    · refine (getLast?_dropAngle hfirst).imp_right fun hplain => ⟨.inr hk, ?_⟩
      rwa [bracketsOf_dropAngle] at hplain
    · exact .inr ⟨.inr hk, hplain⟩
  | keeps _ => exact .inl h

theorem nesting_openersAfter (ho : openersAfter openers last? t rest = some openers')
    (ts : List Token) :
    nesting (bracketsOf openers) (t :: ts) = nesting (bracketsOf openers') ts := by
  apply nesting_cons
  rw [← map_bracketsOf_openersAfter openers last? t rest, ho]
  rfl

/-- A default goes on until the outermost angle bracket is closed. -/
theorem exists_closing (h : capture openers last? (ds ++ rest) = .ok ds)
    (hlast : openers.getLast? = some .less) :
    ∃ us g vs, ds = us ++ g :: vs ∧ (g.kind = .greater ∨ g.kind = .greaterGreater) ∧
      nesting (bracketsOf openers) us = some [] := by
  induction ds generalizing openers last? with
  | nil =>
    rw [capture_nil h] at hlast
    cases hlast
  | cons d ds ih =>
    obtain ⟨-, openers', ho, hc⟩ := capture_append h
    rcases getLast?_openersAfter_of_less ho hlast with hkept | ⟨hk, hplain⟩
    · obtain ⟨us, g, vs, rfl, hg, hus⟩ := ih hc hkept
      refine ⟨d :: us, g, vs, rfl, hg, ?_⟩
      rw [nesting_openersAfter ho]
      exact hus
    · refine ⟨[], d, ds, rfl, hk, ?_⟩
      rw [hplain]
      rfl

/-- At a comma outside of other brackets an angle bracket is open, which has been opened before the
default, by its first token or behind an identifier of the default. -/
theorem exists_open_of_comma {before behind : List Token} {comma : Token}
    (h : capture openers last? (before ++ comma :: behind ++ rest) =
      .ok (before ++ comma :: behind))
    (hk : comma.kind = .comma) (hout : nesting (bracketsOf openers) before = some []) :
    (openers.getLast? = some .less ∨
      (openers = [] ∧ last? = some .identifier ∧ ∃ l vs, before = l :: vs ∧ l.kind = .less) ∨
      ∃ us i l vs, before = us ++ i :: l :: vs ∧ i.kind = .identifier ∧ l.kind = .less ∧
        nesting (bracketsOf openers) (us ++ [i]) = some []) ∧
    ∃ openers', openers'.getLast? = some .less ∧ bracketsOf openers' = [] ∧
      capture openers' (some .comma) (behind ++ rest) = .ok behind := by
  induction before generalizing openers last? with
  | nil =>
    rw [List.nil_append] at h
    obtain ⟨hend, openers', ho, hc⟩ := capture_append h
    have hplain : bracketsOf openers = [] := Option.some.inj hout
    have hne : openers ≠ [] := by
      rintro rfl
      rw [hk] at hend
      cases hend
    have hlast := getLast?_of_bracketsOf hplain hne
    have hsame : openers' = openers := by
      rw [openersAfter, hk] at ho
      exact (Option.some.inj ho).symm
    rw [hk, hsame] at hc
    exact ⟨.inl hlast, openers, hlast, hplain, hc⟩
  | cons d before ih =>
    obtain ⟨-, openers', ho, hc⟩ := capture_append h
    rw [nesting_openersAfter ho] at hout
    obtain ⟨hopened, hrest⟩ := ih hc hout
    refine ⟨?_, hrest⟩
    rcases hopened with hlast | ⟨rfl, hd, l, vs, rfl, hl⟩ | ⟨us, i, l, vs, rfl, hi, hl, hus⟩
    · rcases getLast?_openersAfter ho hlast with hlast | ⟨hnil, hless, hident⟩
      · exact .inl hlast
      · exact .inr (.inl ⟨hnil, hident, d, before, rfl, hless⟩)
    · refine .inr (.inr ⟨[], d, l, vs, rfl, Option.some.inj hd, hl, ?_⟩)
      rw [List.nil_append, nesting_openersAfter ho]
      rfl
    · refine .inr (.inr ⟨d :: us, i, l, vs, rfl, hi, hl, ?_⟩)
      rw [List.cons_append, nesting_openersAfter ho]
      exact hus

/-- The commas outside of brackets in a default separate template arguments. -/
theorem enclosed_of_capture {before behind : List Token} {comma : Token}
    (h : capture [] none (before ++ comma :: behind ++ rest) = .ok (before ++ comma :: behind))
    (hk : comma.kind = .comma) (hout : Balanced before) : Enclosed before comma behind := by
  obtain ⟨hopened, openers, hlast, hplain, hc⟩ := exists_open_of_comma h hk hout
  refine ⟨?_, ?_⟩
  · rcases hopened with hlast | ⟨-, hnone, -⟩ | hfound
    · cases hlast
    · cases hnone
    · exact hfound
  · obtain ⟨us, g, vs, rfl, hg, hus⟩ := exists_closing hc hlast
    refine ⟨us, g, vs, rfl, hg, ?_⟩
    rw [hplain] at hus
    have hcomma : bracketsAfter [] comma.kind = some [] := by
      rw [hk]
      rfl
    rw [Balanced, nesting_append, hout, Option.bind_some, nesting_cons hcomma]
    exact hus

/-! ## Counters that cannot fall below zero -/

/-- One less, unless that is below zero. -/
def pred? : Nat → Option Nat
  | 0 => none
  | n + 1 => some n

/-- The step of the search for a closing angle bracket, with counters from which nothing is taken
that they do not have; only a shift may close less than two angle brackets. -/
def angleStep? (angles brackets : Nat) : Kind → Option (Option (Nat × Nat))
  | .semicolon => some none
  | .less => some (some (if brackets = 0 then (angles + 1, brackets) else (angles, brackets)))
  | .greater =>
    if brackets = 0 then (pred? angles).map fun a => some (a, brackets)
    else some (some (angles, brackets))
  | .greaterGreater =>
    some (some (if brackets = 0 then (angles - 2, brackets) else (angles, brackets)))
  | .leftParen | .leftBracket | .leftBrace => some (some (angles, brackets + 1))
  | .rightParen | .rightBracket | .rightBrace =>
    if brackets = 0 then some none else (pred? brackets).map fun b => some (angles, b)
  | _ => some (some (angles, brackets))

/-- The search with such counters; none if one of them would have fallen below zero. -/
def closesAngle? (angles brackets : Nat) : List Token → Option Bool
  | [] => some false
  | t :: ts =>
    (angleStep? angles brackets t.kind).bind fun
      | none => some false
      | some (0, _) => some true
      | some (a, b) => closesAngle? a b ts

/-- Where an angle bracket is open, no counter falls below zero in a step. -/
theorem angleStep?_eq {a : Nat} (ha : a ≠ 0) (b : Nat) (k : Kind) :
    angleStep? a b k = some (angleStep a b k) := by
  obtain ⟨n, rfl⟩ := Nat.exists_eq_succ_of_ne_zero ha
  cases b with
  | zero => cases k <;> rfl
  | succ b => cases k <;> rfl

/-- The search goes on only while an angle bracket is open, so no counter ever falls below zero. -/
theorem closesAngle?_eq {a : Nat} (ha : a ≠ 0) (b : Nat) (ts : List Token) :
    closesAngle? a b ts = some (closesAngle a b ts) := by
  induction ts generalizing a b with
  | nil => rfl
  | cons t ts ih =>
    rw [closesAngle?, closesAngle, angleStep?_eq ha, Option.bind_some]
    rcases angleStep a b t.kind with _ | ⟨a', b'⟩
    · rfl
    · cases a' with
      | zero => rfl
      | succ a' => exact ih (Nat.succ_ne_zero a') b'

end DefaultValue

/-! ## The rule -/

namespace Parse

open DefaultValue

variable {s : TokenStream} {t : Token} {ts ds front rest : List Token}

/-- A default is missing where its first token would end it. -/
theorem defaultValue_of_capture_nil (h : capture [] none s.ahead = .ok []) :
    ∃ message, defaultValue s = .error ⟨.invalidSyntax, s.peek.span, message⟩ s := by
  rw [defaultValue, h]
  exact ⟨_, rfl⟩

theorem defaultValue_of_capture (h : capture [] none s.ahead = .ok ds) (hne : ds ≠ []) :
    defaultValue s = .ok (textOf ds) (s.skip ds.length) := by
  obtain ⟨t, ts, rfl⟩ := List.exists_cons_of_ne_nil hne
  rw [defaultValue, h]

/-- The text of a default is the part of the source that its tokens reach over. -/
theorem slice?_eq_textOf {source text : List Char} {a : Span} (hs : s.ahead = ds ++ rest)
    (h : Behind source text s) (ha : Reaches ds a) :
    a.slice? source = some (textOf ds).toList := by
  have hreads : Reads s ds ⟨s.past, rest, s.stop⟩ := ⟨hs, rfl⟩
  rw [h.slice? hreads ha, toList_textOf]

/-- **A default ends where its brackets say.** Let `front` be the tokens behind an equals sign up to
the first `)` or `;` outside of all parentheses, square brackets and braces, or up to the end of the
file, and let these brackets nest in `front`. Without a token in front of that place or of a comma
the default is missing. Otherwise there is a default, which reaches to that place or to a comma
outside of brackets, and it is the text from its first token to its last one. All commas outside of
brackets that it contains stand between a `<` behind an identifier and a `>` or `>>`. In the search
for that closing angle bracket no counter falls below zero. -/
theorem defaultValue_ends (hs : s.ahead = front ++ rest) (h : UpToEnd [] front rest) :
    (front = [] ∨ headKind front = .comma →
      ∃ message, defaultValue s = .error ⟨.invalidSyntax, s.peek.span, message⟩ s) ∧
    (front ≠ [] → headKind front ≠ .comma →
      ∃ ds after, front = ds ++ after ∧ ds ≠ [] ∧
        defaultValue s = .ok (textOf ds) (s.skip ds.length) ∧
        (after = [] ∨ headKind after = .comma ∧ Balanced ds) ∧
        (∀ before comma behind, ds = before ++ comma :: behind → comma.kind = .comma →
          Balanced before → Enclosed before comma behind) ∧
        ∀ source text a, Behind source text s → Reaches ds a →
          a.slice? source = some (textOf ds).toList) ∧
    ∀ ts, closesAngle? 1 0 ts = some (closesAngle 1 0 ts) := by
  have hplain : UpToEnd (bracketsOf []) front rest := h
  have hclose : AnglesClose 0 0 [] (front ++ rest) := .inl rfl
  obtain ⟨ds, after, rfl, hcapture, hafter⟩ := exists_capture hplain hclose none
  have hahead : capture [] none s.ahead = .ok ds := by
    rw [hs]
    exact hcapture
  -- what ends a default in front of its first token is a comma
  have hempty : ds = [] ↔ ds ++ after = [] ∨ headKind (ds ++ after) = .comma := by
    constructor
    · rintro rfl
      exact hafter.imp_right fun hcomma => hcomma.1
    · rintro (hnil | hcomma)
      · exact (List.append_eq_nil_iff.1 hnil).1
      · cases ds with
        | nil => rfl
        | cons d ds =>
          rw [List.append_assoc] at hcapture
          obtain ⟨hend, -⟩ := capture_append hcapture
          have hd : d.kind = .comma := hcomma
          rw [hd] at hend
          cases hend
  refine ⟨?_, ?_, fun ts => closesAngle?_eq Nat.one_ne_zero 0 ts⟩
  · intro hfront
    rw [← hempty] at hfront
    subst hfront
    exact defaultValue_of_capture_nil hahead
  · intro hne hcomma
    have hds : ds ≠ [] := by
      rw [Ne, hempty]
      exact not_or.2 ⟨hne, hcomma⟩
    refine ⟨ds, after, rfl, hds, defaultValue_of_capture hahead hds, hafter, ?_, ?_⟩
    · rintro before comma behind rfl hk hout
      have hrun : capture [] none (before ++ comma :: behind ++ (after ++ rest)) =
          .ok (before ++ comma :: behind) := by
        rw [← List.append_assoc]
        exact hcapture
      exact enclosed_of_capture hrun hk hout
    · intro source text a hbehind ha
      rw [List.append_assoc] at hs
      exact slice?_eq_textOf hs hbehind ha

/-- The default of an argument and what follows it, another argument with a default. -/
def boxDefault : TokenStream :=
  .ofLexed (Lexed.ofSource "Box<int, A>(g(1, 2)), int y = lo < hi) const;")

/-- The default goes on behind the first comma, which separates template arguments, and ends at the
third one. -/
theorem boxDefault_ends : ∃ front rest ds after, boxDefault.ahead = front ++ rest ∧
    UpToEnd [] front rest ∧ front ≠ [] ∧ headKind front ≠ .comma ∧ front = ds ++ after ∧
    defaultValue boxDefault = .ok (textOf ds) (boxDefault.skip ds.length) ∧
    textOf ds = "Box<int, A>(g(1, 2))" ∧ headKind after = .comma ∧ Balanced ds := by
  have hahead : boxDefault.ahead = boxDefault.ahead.take 21 ++ boxDefault.ahead.drop 21 :=
    (List.take_append_drop 21 _).symm
  have hend : UpToEnd [] (boxDefault.ahead.take 21) (boxDefault.ahead.drop 21) := by
    decide +kernel
  have hne : boxDefault.ahead.take 21 ≠ [] := by decide +kernel
  have hcomma : headKind (boxDefault.ahead.take 21) ≠ .comma := by decide +kernel
  obtain ⟨-, hruns, -⟩ := defaultValue_ends hahead hend
  obtain ⟨ds, after, hfront, -, hrun, hafter, -, -⟩ := hruns hne hcomma
  have htext : textOf ds = "Box<int, A>(g(1, 2))" := by
    have hvalue := congrArg (fun r => match r with | .ok d _ => d | .error _ _ => "") hrun
    exact hvalue.symm.trans (by decide +kernel)
  refine ⟨_, _, ds, after, hahead, hend, hne, hcomma, hfront, hrun, htext, hafter.resolve_left ?_⟩
  rintro rfl
  rw [List.append_nil] at hfront
  rw [← hfront] at htext
  revert htext
  decide +kernel

end Parse

end TemplateIdl
