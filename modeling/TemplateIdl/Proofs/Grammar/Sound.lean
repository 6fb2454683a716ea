import TemplateIdl.Grammar.Type
import TemplateIdl.Proofs.Grammar.Repeat

/-!
# Sound — streams of tokens that a text was cut into

* `Clean`, a stream whose tokens are those of a text without faults;
* `Sound`, a stream that is clean or clean behind the second half of a shift, as all streams are
  that the rules for types leave behind;
* `parseWith_eq_ok`, how a rule reads a whole text, with `clean_ofSource` and `at_ofSource`, the
  stream that it starts with.
-/

namespace TemplateIdl

/-- The tokens ahead are those of a text without faults. -/
def Clean (s : TokenStream) : Prop :=
  s.stop.kind = .eof ∧ ∃ gap cs, LexesFrom gap cs (s.ahead.map Token.bare)

/-- The tokens ahead are those of a text without faults, perhaps behind the second half of a
shift. -/
def Sound (s : TokenStream) : Prop :=
  Clean s ∨ (s.ahead ≠ [] ∧ s.peek.bare = closer "" ∧ Clean s.advance)

theorem LexesFrom.tail {gap cs : List Char} {t : Token} {ts : List Token}
    (h : LexesFrom gap cs (t :: ts)) : ∃ q, LexesFrom [] q ts := by
  have hsplit : LexesFrom gap cs ([t] ++ ts) := h
  obtain ⟨-, q, -, -, -, hq, -⟩ := hsplit.cut (by simp)
  exact ⟨q, hq⟩

theorem Clean.sound {s : TokenStream} (h : Clean s) : Sound s := .inl h

theorem Clean.advance {s : TokenStream} (h : Clean s) : Clean s.advance := by
  obtain ⟨past, ahead, stop⟩ := s
  obtain ⟨hstop, gap, cs, hlex⟩ := h
  cases ahead with
  | nil => exact ⟨hstop, gap, cs, hlex⟩
  | cons t ts =>
    obtain ⟨q, hq⟩ := hlex.tail
    exact ⟨hstop, [], q, hq⟩

theorem Clean.skip {s : TokenStream} (h : Clean s) (n : Nat) : Clean (s.skip n) := by
  obtain ⟨past, ahead, stop⟩ := s
  obtain ⟨hstop, gap, cs, hlex⟩ := h
  induction n generalizing past ahead gap cs with
  | zero => exact ⟨hstop, gap, cs, hlex⟩
  | succ n ih =>
    cases ahead with
    | nil => exact ⟨hstop, gap, cs, hlex⟩
    | cons t ts =>
      obtain ⟨q, hq⟩ := hlex.tail
      exact ih [] ts hstop [] q hq

namespace Sound

variable {s : TokenStream}

theorem advance (h : Sound s) : Clean s.advance := by
  rcases h with h | ⟨-, -, h⟩
  · exact h.advance
  · exact h

theorem stop (h : Sound s) : s.stop.kind = .eof := by
  rcases h with h | ⟨-, -, h⟩
  · exact h.1
  · obtain ⟨past, ahead, stop⟩ := s
    cases ahead <;> exact h.1

/-- The next token is proper if there is one. -/
theorem proper_of_ahead (h : Sound s) (hne : s.ahead ≠ []) : s.peek.Proper := by
  obtain ⟨past, ahead, stop⟩ := s
  obtain ⟨t, ts, rfl⟩ := List.exists_cons_of_ne_nil hne
  rcases h with ⟨-, gap, cs, hlex⟩ | ⟨-, hb, -⟩
  · exact hlex.proper t.bare (by simp)
  · obtain ⟨hk', hl', -⟩ := Token.bare_eq_iff.1 (hb : t.bare = (closer "").bare)
    show isTokenText t.kind t.lexeme = true
    rw [show t.kind = .greater from hk', show t.lexeme = ">" from hl']
    decide

/-- The end of the file is next exactly if nothing is left. -/
theorem peek_eq_eof_iff (h : Sound s) : s.peek.kind = .eof ↔ s.ahead = [] := by
  constructor
  · intro hk
    by_contra hne
    exact (kind_of_isTokenText (h.proper_of_ahead hne)).1 hk
  · intro hnil
    have hpeek : s.peek = s.stop := by
      simp [TokenStream.peek, TokenStream.nth, hnil]
    rw [hpeek]
    exact h.stop

/-- The next token is proper unless nothing is left. -/
theorem proper (h : Sound s) (hk : s.peek.kind ≠ .eof) : s.peek.Proper :=
  h.proper_of_ahead fun hnil => hk (h.peek_eq_eof_iff.2 hnil)

end Sound

namespace Parse

variable {s : TokenStream}

/-- A closing bracket leaves a sound stream behind: of a shift its second half is left. -/
theorem yields_templateClose (h : Sound s) : Yields templateClose s fun _ s' => Sound s' := by
  have hmodify : Yields (modify TokenStream.splitShift : Parse PUnit) s
      fun _ s' => s' = s.splitShift := by
    intro _ _ hread
    cases hread
    rfl
  refine hmodify.bind ?_
  rintro _ _ rfl
  refine (yields_eat .greater).bind ?_
  intro b s1 h1
  cases b with
  | false => exact (Yields.bind yields_peek fun _ _ _ => Yields.fail)
  | true =>
    obtain ⟨-, rfl⟩ := h1
    refine .pure ?_
    have hclean := h.advance
    obtain ⟨past, ahead, stop⟩ := s
    cases ahead with
    | nil => exact hclean.sound
    | cons t ts =>
      unfold TokenStream.splitShift
      dsimp only
      split
      · exact .inr ⟨by simp, rfl, hclean⟩
      · exact hclean.sound

/-- The items in angle brackets. -/
theorem yields_bracketed {α : Type} {item : Parse α} {P : α → Prop} (whenEmpty : String)
    (hitem : ∀ s, Sound s → Yields item s fun a s' => P a ∧ Sound s') (h : Sound s) :
    Yields (bracketed whenEmpty item) s fun as s' => (∀ a ∈ as, P a) ∧ as ≠ [] ∧ Sound s' := by
  refine (yields_expect .less).bind ?_
  intro opening _ hread
  obtain ⟨-, -, rfl⟩ := hread
  refine Yields.bind (P := fun _ s' => s' = s.advance) (by rintro _ _ ⟨⟩; rfl) ?_
  rintro b _ rfl
  split
  · exact Yields.fail
  · refine (yields_commaSeparated_all hitem (fun s hs _ => hs.advance.sound) h.advance.sound).bind ?_
    intro as s1 hread
    obtain ⟨has, hne, h1⟩ := hread
    refine (yields_templateClose h1).bind ?_
    intro _ s2 h2
    exact .pure ⟨has, hne, h2⟩

end Parse

/-! ## Whole texts -/

theorem Lexed.stop_ofPieces (tail : List Char) (p : Position) (gap : List Char)
    (xs : List Piece) : (Lexed.ofPieces tail p gap xs).stop.kind = .eof := by
  induction xs generalizing p gap with
  | nil => rfl
  | cons x xs ih =>
    unfold Lexed.ofPieces
    dsimp only
    split
    · exact ih _ _
    · exact ih _ _
    · exact ih _ _

theorem Spells.of_bare {ts ws : List Token} (h : Spells (ts.map Token.bare) ws) :
    Spells ts ws := by
  induction ts generalizing ws with
  | nil => exact h
  | cons t ts ih =>
    rw [List.map_cons] at h
    generalize ht : t.bare = b at h
    cases h with
    | same hb hr => exact .same (by rw [← hb, ← ht]; rfl) (ih hr)
    | shift hk hl hr =>
      subst ht
      exact .shift hk hl (ih hr)

/-- The stream of a text has all tokens of the text. -/
theorem ahead_ofSource {source : String} (h : (Lexed.ofSource source).errors = []) :
    (TokenStream.ofLexed (Lexed.ofSource source)).ahead = (Lexed.ofSource source).tokens := by
  have hlex := (lexes_iff_ofSource source _).2 ⟨h, rfl⟩
  refine List.filter_eq_self.2 fun t ht => ?_
  have hp : isTokenText t.kind t.lexeme = true :=
    hlex.proper t.bare (List.mem_map.2 ⟨t, ht, rfl⟩)
  simpa using (kind_of_isTokenText hp).2

/-- The first token of a text is the next one for a rule. -/
theorem peek_ofSource {source : String} {t : Token} {ts : List Token}
    (h : (Lexed.ofSource source).errors = []) (ht : (Lexed.ofSource source).tokens = t :: ts) :
    (TokenStream.ofLexed (Lexed.ofSource source)).peek = t := by
  rw [TokenStream.peek, TokenStream.nth, ahead_ofSource h, ht]
  rfl

theorem clean_ofSource {source : String} (h : (Lexed.ofSource source).errors = []) :
    Clean (.ofLexed (Lexed.ofSource source)) := by
  refine ⟨Lexed.stop_ofPieces _ _ _ _, [], source.toList, ?_⟩
  rw [ahead_ofSource h]
  exact (lexes_iff_ofSource source _).2 ⟨h, rfl⟩

/-- The stream of a text that is written with words stands in front of the words. -/
theorem at_ofSource {ws : List Token} {tail : List Char} (h : Legible ws tail) {source : String}
    (hs : source.toList = Token.chars ws ++ tail) :
    (Lexed.ofSource source).errors = [] ∧ At (.ofLexed (Lexed.ofSource source)) ws := by
  obtain ⟨ts, hlex, hspell⟩ := h
  rw [← hs] at hlex
  obtain ⟨he, ht⟩ := (lexes_iff_ofSource source ts).1 hlex
  refine ⟨he, ?_, Lexed.stop_ofPieces _ _ _ _⟩
  rw [ahead_ofSource he]
  exact .of_bare (ht ▸ hspell)

theorem parseWith_eq_ok {α : Type} {rule : Parse α} {source : String} {a : α} :
    parseWith rule source = .ok a ↔ (Lexed.ofSource source).errors = [] ∧
      ∃ s', rule (.ofLexed (Lexed.ofSource source)) = .ok a s' := by
  unfold parseWith
  dsimp only
  split
  · next he =>
    rw [List.isEmpty_iff] at he
    rw [EStateM.run]
    rcases rule (.ofLexed (Lexed.ofSource source)) with ⟨b, s'⟩ | ⟨e, s'⟩
    · simp [he]
    · simp
  · next he =>
    rw [List.isEmpty_iff] at he
    simp [he]

end TemplateIdl
