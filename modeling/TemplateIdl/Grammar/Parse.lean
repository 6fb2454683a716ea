import TemplateIdl.Diagnostic.Syntax
import TemplateIdl.Grammar.Stream

/-!
# Parse — rules that read tokens

- `Parse`, a rule: it reads from a stream and gives a value or a syntax error, and in both cases
  tells how far it has read
- `peek`, `check`, `advance`, `eat`, `expect` and `expectIdentifier`, the rules for one token
- `fix`, a rule that uses itself, unfolded as often as there are tokens to feed it;
  `Parse.fix_eq` says when that is as often as needed
- `manyWhile` and `commaSeparated`, repeating a rule
-/

namespace TemplateIdl

/-- A rule that reads tokens. After an error the stream stands where reading stopped. -/
abbrev Parse := EStateM ParseError TokenStream

namespace Parse

/-! ## Single tokens -/

/-- The next token, which is not read. -/
def peek : Parse Token := fun s => .ok s.peek s

/-- Whether the next token is of kind `k`. -/
def check (k : Kind) : Parse Bool := fun s => .ok (s.peek.kind == k) s

/-- Whether the token after the next one is of kind `k`. -/
def checkSecond (k : Kind) : Parse Bool := fun s => .ok ((s.nth 1).kind == k) s

/-- Reads a token, whatever it is. -/
def advance : Parse Token := fun s => .ok s.peek s.advance

/-- Reads a token if it is of kind `k`, and tells whether it was. -/
def eat (k : Kind) : Parse Bool := fun s =>
  if s.peek.kind = k then .ok true s.advance else .ok false s

/-- Reads a token of kind `k`. -/
def expect (k : Kind) : Parse Token := fun s =>
  let t := s.peek
  if t.kind = k then .ok t s.advance
  else if t.kind = .eof then
    .error ⟨.unexpectedEof, t.span, "expected " ++ k.description ++ ", found end of file"⟩ s
  else .error (.expectedToken t.span k.description t.lexeme) s

/-- Reads an identifier and gives its text. -/
def expectIdentifier : Parse String := fun s =>
  let t := s.peek
  if t.kind = .identifier then .ok t.lexeme s.advance
  else if t.kind = .eof then .error (.unexpectedEof t.span) s
  else .error (.expectedIdentifier t.span t.lexeme) s

/-- Nothing may follow. -/
def expectEof : Parse Unit := fun s =>
  let t := s.peek
  if t.kind = .eof then .ok () s else .error (.unexpectedToken t.span t.lexeme) s

/-- From the place `start` to the token read last. -/
def spanFrom (start : Span) : Parse Span := fun s => .ok (start.merge s.previousSpan) s

/-- Fails with an error of the given category. -/
def fail {α : Type} (kind : ParseErrorKind) (span : Span) (message : String) : Parse α :=
  throw ⟨kind, span, message⟩

/-! ## Rules that use themselves -/

section Fix

variable {ι α : Type}

/-- There is no token left for another use of a rule. -/
def exhausted : Parse α := fun s => .error (.unexpectedEof s.peek.span) s

/-- A rule unfolded `n` times. -/
def unfold (rule : (ι → Parse α) → ι → Parse α) : Nat → ι → Parse α
  | 0, _ => exhausted
  | n + 1, i => rule (unfold rule n) i

/-- A rule that may use itself once some token is read. -/
def fix (rule : (ι → Parse α) → ι → Parse α) (i : ι) : Parse α := fun s =>
  unfold rule (s.weight + 1) i s

/-- Two families of rules do the same to all streams of files that weigh less than `n`. -/
def AgreeBelow (n : Nat) (f g : ι → Parse α) : Prop :=
  ∀ i s, s.stop.kind = .eof → s.weight < n → f i s = g i s

/-- A rule uses itself only on lighter streams, as long as the rules that it uses have the
property `P`. -/
def Guarded (P : Parse α → Prop) (rule : (ι → Parse α) → ι → Parse α) : Prop :=
  ∀ f g, (∀ i, P (f i)) → (∀ i, P (g i)) →
    ∀ n, AgreeBelow n f g → ∀ i s, s.stop.kind = .eof → s.weight ≤ n → rule f i s = rule g i s

variable {P : Parse α → Prop} {rule : (ι → Parse α) → ι → Parse α}

theorem unfold_property (h0 : P exhausted) (hP : ∀ f, (∀ i, P (f i)) → ∀ i, P (rule f i))
    (n : Nat) (i : ι) : P (unfold rule n i) := by
  induction n generalizing i with
  | zero => exact h0
  | succ n ih => exact hP _ ih i

/-- Unfolding more often than a stream is heavy changes nothing. -/
theorem unfold_eq_unfold (h0 : P exhausted) (hP : ∀ f, (∀ i, P (f i)) → ∀ i, P (rule f i))
    (hG : Guarded P rule) (m n : Nat) (i : ι) (s : TokenStream) (hs : s.stop.kind = .eof)
    (hm : s.weight < m) (hn : s.weight < n) : unfold rule m i s = unfold rule n i s := by
  induction m generalizing n i s with
  | zero => omega
  | succ m ih =>
    cases n with
    | zero => omega
    | succ n =>
      refine hG _ _ (unfold_property h0 hP m) (unfold_property h0 hP n) s.weight ?_ i s hs
        (Nat.le_refl _)
      intro j t ht hlt
      exact ih n j t ht (by omega) (by omega)

/-- A guarded rule satisfies its own equation on the streams of files. -/
theorem fix_eq (h0 : P exhausted) (hP : ∀ f, (∀ i, P (f i)) → ∀ i, P (rule f i))
    (hG : Guarded P rule) (hfix : ∀ i, P (fix rule i)) (i : ι) {s : TokenStream}
    (hs : s.stop.kind = .eof) : fix rule i s = rule (fix rule) i s := by
  refine hG _ _ (unfold_property h0 hP s.weight) hfix s.weight ?_ i s hs (Nat.le_refl _)
  intro j t ht hlt
  exact unfold_eq_unfold h0 hP hG _ _ j t ht hlt (Nat.lt_succ_self _)

end Fix

/-! ## Repetition -/

/-- Uses a rule as long as the stream satisfies a condition. -/
def manyWhile {α : Type} (more : TokenStream → Bool) (item : Parse α) : Parse (List α) :=
  fix (fun again (_ : Unit) => do
    if more (← get) then
      let x ← item
      let xs ← again ()
      pure (x :: xs)
    else pure []) ()

/-- Uses a rule once, and again behind each comma. -/
def commaSeparated {α : Type} (item : Parse α) : Parse (List α) :=
  fix (fun again (_ : Unit) => do
    let x ← item
    if ← eat .comma then
      let xs ← again ()
      pure (x :: xs)
    else pure [x]) ()

end Parse

end TemplateIdl
