import TemplateIdl.Token.Piece

/-!
# Lexed — a source text as tokens with their places

- `Lexed`, the tokens of a text, the errors for what is no token, and the end
- `Lexed.ofPieces`, the pieces of a text put at their places
- `Lexed.ofSource`, the tokens of a whole text
-/

namespace TemplateIdl

/-- A source text as tokens. -/
structure Lexed where
  /-- All tokens in order; text that is no token has kind `error`. -/
  tokens : List Token
  /-- One error for each stretch of text that is no token, in order. -/
  errors : List LexError
  /-- The end of the file. -/
  stop : Token
deriving DecidableEq

namespace Lexed

/-- Puts pieces at their places. The first piece starts at `p`, `gap` is the text between the
last token and `p`, and `tail` are the blanks behind the last piece. -/
def ofPieces (tail : List Char) : Position → List Char → List Piece → Lexed
  | p, gap, [] => ⟨[], [], ⟨.eof, "", String.ofList (gap ++ tail), .point (p.after tail)⟩⟩
  | p, gap, x :: xs =>
    let here := p.after x.blank
    let next := here.after x.body
    let span := Span.covering here x.body
    let before := String.ofList (gap ++ x.blank)
    match x.kind with
    | .comment => ofPieces tail next (gap ++ x.text) xs
    | .token kind =>
      let rest := ofPieces tail next [] xs
      { rest with tokens := ⟨kind, String.ofList x.body, before, span⟩ :: rest.tokens }
    | .fault fault =>
      let rest := ofPieces tail next [] xs
      { rest with
        tokens := ⟨.error, "", before, span⟩ :: rest.tokens
        errors := ⟨fault, span⟩ :: rest.errors }

/-- The tokens of a source text. -/
def ofSource (source : String) : Lexed :=
  let s := pieces source.toList
  ofPieces s.2 Position.start [] s.1

/-- Every stretch of text that is no token has its error, and no other. -/
theorem map_span_errors (tail : List Char) (p : Position) (gap : List Char) (xs : List Piece)
    (h : ∀ x ∈ xs, x.kind ≠ .token .error) :
    (ofPieces tail p gap xs).errors.map LexError.span
      = ((ofPieces tail p gap xs).tokens.filter (·.kind == .error)).map Token.span := by
  induction xs generalizing p gap with
  | nil => rfl
  | cons x xs ih =>
    have hx := h x (by simp)
    have ih := fun p gap => ih p gap fun y hy => h y (by simp [hy])
    unfold ofPieces
    dsimp only
    split
    · exact ih _ _
    · next kind hk =>
      have : (kind == Kind.error) = false := by
        rw [hk] at hx
        simpa using hx
      simp [this, ih]
    · simp [ih]

end Lexed

end TemplateIdl
