import TemplateIdl.Grammar.Parse

/-!
# Default values

A default is kept as it is written. Where it ends is told by its brackets: it reaches to the
first comma, semicolon or closing parenthesis that is outside of all brackets opened in it. A
`<` opens a bracket only if it follows an identifier and is closed again, and is a comparison
otherwise.

- `closesAngle`, whether a `<` is closed again
- `DefaultValue.closeBracket`, `DefaultValue.dropAngle` and `DefaultValue.openersAfter`, the open
  brackets behind a token
- `DefaultValue.capture`, the tokens of a default
- `Parse.optionalDefault`, the rule
-/

namespace TemplateIdl

/-! ## Angle brackets -/

/-- How many angle brackets and how many other brackets are open behind a token, if there were
`angles` and `brackets` before it; none if the search for a closing `>` ends there. -/
def angleStep (angles brackets : Nat) : Kind → Option (Nat × Nat)
  | .semicolon => none
  | .less => some (if brackets = 0 then (angles + 1, brackets) else (angles, brackets))
  | .greater => some (if brackets = 0 then (angles - 1, brackets) else (angles, brackets))
  | .greaterGreater =>
    some (if brackets = 0 then (angles - 2, brackets) else (angles, brackets))
  | .leftParen | .leftBracket | .leftBrace => some (angles, brackets + 1)
  | .rightParen | .rightBracket | .rightBrace =>
    if brackets = 0 then none else some (angles, brackets - 1)
  | _ => some (angles, brackets)

/-- Whether all open angle brackets are closed before the enclosing bracket closes, the
declaration ends or the file ends. Commas do not matter. -/
def closesAngle (angles brackets : Nat) : List Token → Bool
  | [] => false
  | t :: ts =>
    match angleStep angles brackets t.kind with
    | none => false
    | some (0, _) => true
    | some (a, b) => closesAngle a b ts

namespace DefaultValue

/-! ## Open brackets -/

/-- Why a default has no end. -/
inductive Fault where
  /-- The file ends inside a bracket of this kind. -/
  | unclosed (opener : Kind)
  /-- The token closes no bracket. -/
  | unmatched (token : Token)
deriving DecidableEq

/-- The open brackets without the innermost one, if that is an angle bracket. -/
def dropAngle : List Kind → List Kind
  | .less :: openers => openers
  | openers => openers

/-- The open brackets behind a bracket that closes `opener`. Angle brackets inside it have been
comparisons. -/
def closeBracket (opener : Kind) (openers : List Kind) : Option (List Kind) :=
  match openers.dropWhile (· == .less) with
  | [] => none
  | k :: rest => if k = opener then some rest else none

/-- The open brackets behind the token `t`, which follows a token of kind `last?` and is followed
by `rest`; none if it closes a bracket that is not open. -/
def openersAfter (openers : List Kind) (last? : Option Kind) (t : Token) (rest : List Token) :
    Option (List Kind) :=
  match t.kind with
  | .leftParen | .leftBracket | .leftBrace => some (t.kind :: openers)
  | .less =>
    if last? = some .identifier ∧ closesAngle 1 0 rest then some (.less :: openers)
    else some openers
  | .rightParen => closeBracket .leftParen openers
  | .rightBracket => closeBracket .leftBracket openers
  | .rightBrace => closeBracket .leftBrace openers
  | .greater => some (dropAngle openers)
  -- a shift closes two angle brackets
  | .greaterGreater => some (dropAngle (dropAngle openers))
  | _ => some openers

/-- Whether a token ends a default when no bracket is open. -/
def isEnd (k : Kind) : Bool :=
  k == .comma || k == .semicolon || k == .rightParen

/-! ## The tokens of a default -/

/-- The tokens of a default at the front of `ts`, where `openers` are open and the last token
was of kind `last?`. -/
def capture (openers : List Kind) (last? : Option Kind) :
    List Token → Except Fault (List Token)
  | [] =>
    match openers with
    | [] => .ok []
    | k :: _ => .error (.unclosed k)
  | t :: ts =>
    if openers.isEmpty && isEnd t.kind then .ok []
    else
      match openersAfter openers last? t ts with
      | none => .error (.unmatched t)
      | some openers' => (capture openers' (some t.kind) ts).map (t :: ·)

/-- The text from the first token to the last one, blanks and comments between them included. -/
def textOf : List Token → String
  | [] => ""
  | t :: ts => t.lexeme ++ String.join (ts.map fun u => u.gap ++ u.lexeme)

end DefaultValue

namespace Parse

open DefaultValue in
/-- A default value. -/
def defaultValue : Parse String := fun s =>
  match capture [] none s.ahead with
  | .ok [] =>
    .error ⟨.invalidSyntax, s.peek.span,
      "expected default value after '=', found " ++ s.peek.lexeme⟩ s
  | .ok ts => .ok (textOf ts) (s.skip ts.length)
  | .error (.unclosed k) =>
    .error ⟨.mismatchedDelimiter, s.stop.span,
      "unclosed " ++ k.description ++ " in default value"⟩ s
  | .error (.unmatched t) =>
    .error ⟨.mismatchedDelimiter, t.span,
      "unmatched " ++ t.kind.description ++ " in default value"⟩ s

/-- A default value behind an equals sign, if there is one. -/
def optionalDefault : Parse (Option String) := do
  if ← eat .equal then
    let d ← defaultValue
    pure (some d)
  else pure none

end Parse

end TemplateIdl
