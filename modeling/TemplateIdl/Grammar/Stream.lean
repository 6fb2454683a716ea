import TemplateIdl.Token.Lexed

/-!
# Stream — tokens on their way through a parser

- `TokenStream`, the tokens read, the tokens ahead and the end of the file
- `TokenStream.nth`, `TokenStream.peek` and `TokenStream.advance`, looking ahead and reading
- `TokenStream.splitShift`, which turns a `>>` ahead into two closing brackets
- `TokenStream.weight`, how much there is to read, counting a `>>` twice
-/

namespace TemplateIdl

/-- The tokens of a file, divided by how far a parser has read. -/
structure TokenStream where
  /-- The tokens read, the last one first. -/
  past : List Token
  /-- The tokens not read yet. -/
  ahead : List Token
  /-- The end of the file. -/
  stop : Token
deriving DecidableEq, Inhabited

/-- A `>>` counts as the two brackets that it may stand for, any other token as one. -/
def Token.weight (t : Token) : Nat :=
  if t.kind = .greaterGreater then 2 else 1

/-- The weight of several tokens. -/
def Token.totalWeight : List Token → Nat
  | [] => 0
  | t :: ts => t.weight + totalWeight ts

@[simp] theorem Token.totalWeight_append (ts us : List Token) :
    totalWeight (ts ++ us) = totalWeight ts + totalWeight us := by
  induction ts with
  | nil => simp [totalWeight]
  | cons t ts ih => simp [totalWeight, ih, Nat.add_assoc]

theorem Token.weight_pos (t : Token) : 0 < t.weight := by
  unfold weight
  split <;> decide

namespace TokenStream

/-- All tokens still to be read. Text that is no token is left out. -/
def ofLexed (r : Lexed) : TokenStream :=
  ⟨[], r.tokens.filter (·.kind != .error), r.stop⟩

/-- All tokens in their order, the end of the file included. -/
def buffer (s : TokenStream) : List Token :=
  s.past.reverse ++ s.ahead ++ [s.stop]

/-- The number of tokens read. -/
def position (s : TokenStream) : Nat := s.past.length

/-- The token `n` places ahead; behind the last token only the end follows. -/
def nth (s : TokenStream) (n : Nat) : Token := s.ahead[n]?.getD s.stop

/-- The next token. -/
def peek (s : TokenStream) : Token := s.nth 0

/-- Reads a token; the end of the file is never passed. -/
def advance (s : TokenStream) : TokenStream :=
  match s.ahead with
  | [] => s
  | t :: ts => ⟨t :: s.past, ts, s.stop⟩

/-- Reads `n` tokens. -/
def skip (s : TokenStream) (n : Nat) : TokenStream :=
  ⟨(s.ahead.take n).reverse ++ s.past, s.ahead.drop n, s.stop⟩

/-- The place of the token read last; of the next one, if none was read. -/
def previousSpan (s : TokenStream) : Span :=
  match s.past with
  | [] => s.peek.span
  | t :: _ => t.span

/-- The first bracket of a `>>`. -/
def firstHalf (t : Token) : Token :=
  ⟨.greater, ">", t.gap, { t.span with len := 1 }⟩

/-- The second bracket of a `>>`. -/
def secondHalf (t : Token) : Token :=
  ⟨.greater, ">", "", ⟨⟨t.span.offset + 1, t.span.line, t.span.col + 1⟩, 1⟩⟩

/-- Turns a `>>` ahead into two closing brackets. -/
def splitShift (s : TokenStream) : TokenStream :=
  match s.ahead with
  | t :: ts =>
    if t.kind = .greaterGreater then { s with ahead := firstHalf t :: secondHalf t :: ts } else s
  | [] => s

/-- How much there is to read. -/
def weight (s : TokenStream) : Nat := Token.totalWeight s.ahead

/-! ## Reading a token -/

@[simp] theorem peek_nil (past : List Token) (stop : Token) :
    peek ⟨past, [], stop⟩ = stop := rfl

@[simp] theorem peek_cons (past : List Token) (t : Token) (ts : List Token) (stop : Token) :
    peek ⟨past, t :: ts, stop⟩ = t := rfl

@[simp] theorem advance_nil (past : List Token) (stop : Token) :
    advance ⟨past, [], stop⟩ = ⟨past, [], stop⟩ := rfl

@[simp] theorem advance_cons (past : List Token) (t : Token) (ts : List Token) (stop : Token) :
    advance ⟨past, t :: ts, stop⟩ = ⟨t :: past, ts, stop⟩ := rfl

/-- Reading keeps the tokens. -/
@[simp] theorem buffer_advance (s : TokenStream) : s.advance.buffer = s.buffer := by
  obtain ⟨past, ahead, stop⟩ := s
  cases ahead <;> simp [buffer]

/-- Splitting a `>>` keeps the weight. -/
@[simp] theorem weight_splitShift (s : TokenStream) : s.splitShift.weight = s.weight := by
  obtain ⟨past, ahead, stop⟩ := s
  unfold splitShift
  cases ahead with
  | nil => rfl
  | cons t ts =>
    dsimp only
    split
    · next h =>
      have ht : t.weight = 2 := by simp [Token.weight, h]
      have h1 : (firstHalf t).weight = 1 := rfl
      have h2 : (secondHalf t).weight = 1 := rfl
      simp only [weight, Token.totalWeight, ht, h1, h2]
      omega
    · rfl

/-- Reading a token takes its weight off. -/
theorem weight_advance_lt {s : TokenStream} (h : s.ahead ≠ []) :
    s.advance.weight < s.weight := by
  obtain ⟨past, ahead, stop⟩ := s
  cases ahead with
  | nil => exact absurd rfl h
  | cons t ts =>
    have := Token.weight_pos t
    simp only [weight, advance_cons, Token.totalWeight]
    omega

end TokenStream

end TemplateIdl
