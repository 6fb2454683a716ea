import TemplateIdl.Text.Blank
import TemplateIdl.Token
import TemplateIdl.Token.Fault

/-!
# Piece — a source text cut into comments, tokens and faults

The text is cut from the left. Each piece takes the blanks in front of it along, and what is
left after the last piece is blank. Nothing is lost where a piece is cut off
(`Piece.text_append_of_scan`), and no piece is empty (`Piece.body_ne_nil_of_scan`).

- `Piece`, one piece with its `PieceKind`
- `splitBlank`, the blanks in front of a piece
- `Bite`, the part that a scanner takes from the front of a text, and the scanners: comments,
  quoted texts, include directives, numbers, words and symbols
- `Bite.first`, the bite at the front of a text that does not begin with a blank
- `pieces`, all pieces of a text with the blanks behind them
-/

namespace TemplateIdl

/-- What a piece of text is. -/
inductive PieceKind where
  | comment
  | token (kind : Kind)
  | fault (fault : LexFault)
deriving DecidableEq

/-- A piece of text with the blanks in front of it. -/
structure Piece where
  blank : List Char
  body : List Char
  kind : PieceKind
deriving DecidableEq

/-- All characters of a piece. -/
def Piece.text (p : Piece) : List Char :=
  p.blank ++ p.body

/-- Cuts the blanks off the front of a text: one byte order mark may stand before them. -/
def splitBlank : List Char → List Char × List Char
  | [] => ([], [])
  | c :: cs =>
    if c = '\uFEFF' then (c :: cs.takeWhile isBlank, cs.dropWhile isBlank)
    else ((c :: cs).takeWhile isBlank, (c :: cs).dropWhile isBlank)

@[simp] theorem splitBlank_append (cs : List Char) :
    (splitBlank cs).1 ++ (splitBlank cs).2 = cs := by
  cases cs with
  | nil => rfl
  | cons c cs =>
    rw [splitBlank]
    split
    · exact congrArg (c :: ·) List.takeWhile_append_dropWhile
    · exact List.takeWhile_append_dropWhile

/-- The front part of a text, what it is, and the rest. -/
structure Bite where
  kind : PieceKind
  taken : List Char
  rest : List Char
deriving DecidableEq

namespace Bite

/-! ## Comments -/

/-- A line comment, up to the end of its line. -/
def lineComment (cs : List Char) : Bite :=
  ⟨.comment, cs.takeWhile (· != '\n'), cs.dropWhile (· != '\n')⟩

/-- Cuts a text behind the first end of a block comment. -/
def splitCommentEnd : List Char → Option (List Char × List Char)
  | [] => none
  | '*' :: '/' :: cs => some (['*', '/'], cs)
  | c :: cs => (splitCommentEnd cs).map fun s => (c :: s.1, s.2)

theorem splitCommentEnd_append {cs : List Char} {s : List Char × List Char}
    (h : splitCommentEnd cs = some s) : s.1 ++ s.2 = cs := by
  fun_induction splitCommentEnd cs generalizing s with
  | case1 => simp at h
  | case2 cs => cases h; rfl
  | case3 c cs _ ih =>
    obtain ⟨t, ht, rfl⟩ := Option.map_eq_some_iff.1 h
    simp [ih ht]

/-- A block comment, of which `cs` is the part behind its opening; without an end it takes all
of the text. -/
def blockComment (cs : List Char) : Bite :=
  match splitCommentEnd cs with
  | some s => ⟨.comment, '/' :: '*' :: s.1, s.2⟩
  | none => ⟨.fault .unterminatedComment, '/' :: '*' :: cs, []⟩

/-! ## Quoted texts -/

/-- Reads up to the closing `quote`, a line feed or the end: whether the quote was found, what
was read and the rest. A backslash takes the next character along, whatever it is. -/
def splitQuote (quote : Char) : List Char → Bool × List Char × List Char
  | [] => (false, [], [])
  | '\n' :: cs => (false, [], '\n' :: cs)
  | ['\\'] => (false, ['\\'], [])
  | '\\' :: c :: cs =>
    let s := splitQuote quote cs
    (s.1, '\\' :: c :: s.2.1, s.2.2)
  | c :: cs =>
    if c = quote then (true, [c], cs)
    else
      let s := splitQuote quote cs
      (s.1, c :: s.2.1, s.2.2)

theorem splitQuote_append (quote : Char) (cs : List Char) :
    (splitQuote quote cs).2.1 ++ (splitQuote quote cs).2.2 = cs := by
  fun_induction splitQuote quote cs with
  | case1 => rfl
  | case2 => rfl
  | case3 => rfl
  | case4 c cs s ih => simpa using ih
  | case5 => rfl
  | case6 c cs _ _ _ _ s ih => simpa using ih

/-- A string or character literal, of which `cs` is the part behind its opening `quote`. -/
def quoted (quote : Char) (cs : List Char) : Bite :=
  let s := splitQuote quote cs
  ⟨if s.1 then .token .stringLiteral else .fault .unterminatedString, quote :: s.2.1, s.2.2⟩

/-! ## Include directives -/

/-- The word that an include directive begins with. -/
def includeWord : List Char := ['#', 'i', 'n', 'c', 'l', 'u', 'd', 'e']

/-- The blanks that may stand between the word and the path of an include directive. -/
def isSpaceOrTab (c : Char) : Bool := c == ' ' || c == '\t'

/-- The character that closes a path, by the one that opens it. -/
def pathClose? (c : Char) : Option Char :=
  if c = '<' then some '>' else if c = '"' then some '"' else none

/-- A path of an include directive that closes with `close` on the same line. `front` is the
directive before the path, and `cs` the text behind the opening character. -/
def includePath (close : Char) (front cs : List Char) : Bite :=
  let path := cs.takeWhile fun c => c != close && c != '\n'
  let rest := cs.dropWhile fun c => c != close && c != '\n'
  match rest with
  | c :: after =>
    -- the path may have stopped at a line feed, too
    if c = close ∧ ¬ path.all isBlank then
      ⟨.token .includeDirective, front ++ path ++ [c], after⟩
    else ⟨.fault .malformedInclude, front ++ path, rest⟩
  | [] => ⟨.fault .malformedInclude, front ++ path, []⟩

/-- A directive, of which `cs` is all text from its number sign on. Only `#include` with a path
that is not blank is one. -/
def directive (cs : List Char) : Bite :=
  if includeWord.isPrefixOf cs then
    let rest := cs.drop includeWord.length
    let front := includeWord ++ rest.takeWhile isSpaceOrTab
    match rest.dropWhile isSpaceOrTab with
    | c :: after =>
      match pathClose? c with
      | some close => includePath close (front ++ [c]) after
      | none => ⟨.fault .malformedInclude, front, c :: after⟩
    | [] => ⟨.fault .malformedInclude, front, []⟩
  else ⟨.fault (.unexpectedChar '#'), cs.take 1, cs.drop 1⟩

/-! ## Numbers -/

/-- Hexadecimal digits. -/
def isHexDigit (c : Char) : Bool :=
  c.isDigit || ('a' ≤ c && c ≤ 'f') || ('A' ≤ c && c ≤ 'F')

/-- Letters that may follow the digits of an integer. -/
def isIntSuffix (c : Char) : Bool :=
  c == 'u' || c == 'U' || c == 'l' || c == 'L'

/-- The point and the digits behind it, if there is a point. -/
def splitFraction : List Char → List Char × List Char
  | [] => ([], [])
  | c :: cs =>
    if c = '.' then (c :: cs.takeWhile Char.isDigit, cs.dropWhile Char.isDigit) else ([], c :: cs)

/-- The exponent, if the letter for it is followed by a digit or a sign. -/
def splitExponent : List Char → List Char × List Char
  | e :: c :: cs =>
    if (e = 'e' ∨ e = 'E') ∧ (c.isDigit ∨ c = '+' ∨ c = '-') then
      (e :: c :: cs.takeWhile Char.isDigit, cs.dropWhile Char.isDigit)
    else ([], e :: c :: cs)
  | cs => ([], cs)

/-- The letters behind a number: one `f`, which makes it a floating point number, or any letters
of an integer. -/
def splitSuffix : List Char → Bool × List Char × List Char
  | [] => (false, [], [])
  | c :: cs =>
    if c = 'f' ∨ c = 'F' then (true, [c], cs)
    else (false, (c :: cs).takeWhile isIntSuffix, (c :: cs).dropWhile isIntSuffix)

@[simp] theorem splitFraction_append (cs : List Char) :
    (splitFraction cs).1 ++ (splitFraction cs).2 = cs := by
  unfold splitFraction
  split
  · rfl
  · split <;> simp

@[simp] theorem splitExponent_append (cs : List Char) :
    (splitExponent cs).1 ++ (splitExponent cs).2 = cs := by
  unfold splitExponent
  split
  · split <;> simp
  · simp

@[simp] theorem splitSuffix_append (cs : List Char) :
    (splitSuffix cs).2.1 ++ (splitSuffix cs).2.2 = cs := by
  unfold splitSuffix
  split
  · rfl
  · split <;> simp

/-- A hexadecimal number, of which `cs` is the part behind `zero` and `x`. -/
def hexNumber (zero x : Char) (cs : List Char) : Bite :=
  let rest := cs.dropWhile isHexDigit
  ⟨.token .intLiteral,
    zero :: x :: (cs.takeWhile isHexDigit ++ rest.takeWhile isIntSuffix),
    rest.dropWhile isIntSuffix⟩

/-- A decimal number; a point, an exponent or an `f` makes it a floating point number. -/
def decimalNumber (cs : List Char) : Bite :=
  let fraction := splitFraction (cs.dropWhile Char.isDigit)
  let exponent := splitExponent fraction.2
  let suffix := splitSuffix exponent.2
  let isFloat := !fraction.1.isEmpty || !exponent.1.isEmpty || suffix.1
  ⟨.token (if isFloat then .floatLiteral else .intLiteral),
    cs.takeWhile Char.isDigit ++ (fraction.1 ++ (exponent.1 ++ suffix.2.1)), suffix.2.2⟩

/-- A number at the front of a text. -/
def number : List Char → Bite
  | zero :: x :: cs =>
    if zero = '0' ∧ (x = 'x' ∨ x = 'X') then hexNumber zero x cs
    else decimalNumber (zero :: x :: cs)
  | cs => decimalNumber cs

/-! ## Words and symbols -/

/-- Characters that a word begins with. -/
def isWordStart (c : Char) : Bool := c.isAlpha || c == '_'

/-- Characters that a word goes on with. -/
def isWordChar (c : Char) : Bool := c.isAlphanum || c == '_'

/-- A keyword or an identifier. -/
def word (cs : List Char) : Bite :=
  let text := cs.takeWhile isWordChar
  ⟨.token ((keyword? (String.ofList text)).getD .identifier), text, cs.dropWhile isWordChar⟩

/-- The longest sign that the text begins with. -/
def symbol (c : Char) (cs : List Char) : Bite :=
  match Kind.symbols.find? fun s => s.1.isPrefixOf (c :: cs) with
  | some s => ⟨.token s.2, s.1, (c :: cs).drop s.1.length⟩
  | none => ⟨.fault (.unexpectedChar c), [c], cs⟩

/-! ## The first bite -/

/-- The first bite of the text `c :: cs`, which does not begin with a blank. -/
def first (c : Char) (cs : List Char) : Bite :=
  if c = '/' ∧ cs.head? = some '/' then lineComment (c :: cs)
  else if c = '/' ∧ cs.head? = some '*' then blockComment cs.tail
  else if c = '"' ∨ c = '\'' then quoted c cs
  else if c = '#' then directive (c :: cs)
  else if c.isDigit ∨ (c = '.' ∧ cs.head?.any Char.isDigit) then number (c :: cs)
  else if isWordStart c then word (c :: cs)
  else symbol c cs

/-- A bite splits `cs` behind at least one character. -/
structure Splits (b : Bite) (cs : List Char) : Prop where
  append : b.taken ++ b.rest = cs
  ne_nil : b.taken ≠ []

theorem lineComment_splits {c : Char} {cs : List Char} (h : c ≠ '\n') :
    (lineComment (c :: cs)).Splits (c :: cs) where
  append := by simp [lineComment]
  ne_nil := by simp [lineComment, h]

theorem blockComment_splits (cs : List Char) :
    (blockComment cs).Splits ('/' :: '*' :: cs) := by
  unfold blockComment
  split
  · next s hs => exact ⟨by simp [splitCommentEnd_append hs], by simp⟩
  · exact ⟨by simp, by simp⟩

theorem quoted_splits (quote : Char) (cs : List Char) :
    (quoted quote cs).Splits (quote :: cs) :=
  ⟨by simp [quoted, splitQuote_append], by simp [quoted]⟩

theorem includePath_splits (close : Char) {front : List Char} (cs : List Char)
    (h : front ≠ []) : (includePath close front cs).Splits (front ++ cs) := by
  have hcs : cs.takeWhile (fun c => c != close && c != '\n') ++
      cs.dropWhile (fun c => c != close && c != '\n') = cs := List.takeWhile_append_dropWhile
  unfold includePath
  dsimp only
  split
  · next c after hd =>
    rw [hd] at hcs
    split
    · exact ⟨by simp only [List.append_assoc, List.singleton_append, hcs], by simp⟩
    · exact ⟨by simp only [hd, List.append_assoc, hcs], by simp [h]⟩
  · next hd =>
    rw [hd] at hcs
    exact ⟨by simp only [List.append_assoc, hcs], by simp [h]⟩

theorem includeWord_ne_nil : includeWord ≠ [] := by simp [includeWord]

theorem directive_splits {c : Char} (cs : List Char) : (directive (c :: cs)).Splits (c :: cs) := by
  unfold directive
  split
  · next h =>
    obtain ⟨rest, hr⟩ := List.isPrefixOf_iff_prefix.1 h
    have hs : rest.takeWhile isSpaceOrTab ++ rest.dropWhile isSpaceOrTab = rest :=
      List.takeWhile_append_dropWhile
    rw [← hr]
    simp only [List.drop_left]
    split
    · next d after hd =>
      rw [hd] at hs
      split
      · next close _ =>
        have := includePath_splits close after
          (List.append_ne_nil_of_right_ne_nil (includeWord ++ rest.takeWhile isSpaceOrTab)
            (List.cons_ne_nil d []))
        have he : includeWord ++ rest.takeWhile isSpaceOrTab ++ [d] ++ after = includeWord ++ rest := by
          simp only [List.append_assoc, List.singleton_append, hs]
        rwa [he] at this
      · exact ⟨by rw [List.append_assoc, hs], by simp [includeWord_ne_nil]⟩
    · next hd =>
      rw [hd] at hs
      exact ⟨by rw [List.append_assoc, hs], by simp [includeWord_ne_nil]⟩
  · exact ⟨by simp, by simp⟩

theorem decimalNumber_append (cs : List Char) :
    (decimalNumber cs).taken ++ (decimalNumber cs).rest = cs := by
  simp only [decimalNumber, List.append_assoc, splitSuffix_append, splitExponent_append,
    splitFraction_append, List.takeWhile_append_dropWhile]

theorem number_splits {c : Char} {cs : List Char}
    (h : c.isDigit = true ∨ c = '.') : (number (c :: cs)).Splits (c :: cs) := by
  have hdec : (decimalNumber (c :: cs)).Splits (c :: cs) := by
    refine ⟨decimalNumber_append _, ?_⟩
    rcases h with h | rfl
    · simp [decimalNumber, h]
    · simp [decimalNumber, splitFraction]
  unfold number
  split
  · next zero x ds heq =>
    split
    · rw [heq]
      exact ⟨by simp [hexNumber], by simp [hexNumber]⟩
    · rw [← heq]; exact hdec
  · exact hdec

theorem isWordChar_of_isWordStart {c : Char} (h : isWordStart c = true) : isWordChar c = true := by
  simp only [isWordStart, isWordChar, Char.isAlphanum, Bool.or_eq_true] at h ⊢
  exact h.imp_left Or.inl

theorem word_splits {c : Char} {cs : List Char} (h : isWordStart c = true) :
    (word (c :: cs)).Splits (c :: cs) where
  append := by simp [word]
  ne_nil := by simp [word, isWordChar_of_isWordStart h]

/-- No sign is empty. -/
theorem symbols_ne_nil : ∀ s ∈ Kind.symbols, s.1 ≠ [] := by decide

theorem symbol_splits (c : Char) (cs : List Char) : (symbol c cs).Splits (c :: cs) := by
  unfold symbol
  split
  · next s hs =>
    have hp := List.find?_some hs
    obtain ⟨rest, hr⟩ := List.isPrefixOf_iff_prefix.1 hp
    refine ⟨?_, symbols_ne_nil s (List.mem_of_find?_eq_some hs)⟩
    rw [← hr]
    simp
  · exact ⟨by simp, by simp⟩

theorem first_splits (c : Char) (cs : List Char) : (first c cs).Splits (c :: cs) := by
  unfold first
  split
  · next h => exact lineComment_splits (by rw [h.1]; decide)
  split
  · next h =>
    obtain ⟨rfl, h⟩ := h
    obtain ⟨ds, rfl⟩ := List.head?_eq_some_iff.1 h
    exact blockComment_splits ds
  split
  · exact quoted_splits c cs
  split
  · exact directive_splits cs
  split
  · next h => exact number_splits (h.imp_right And.left)
  split
  · next h => exact word_splits h
  · exact symbol_splits c cs

end Bite

/-! ## All pieces -/

/-- The first piece of a text and what follows it; none if only blanks are left. -/
def Piece.scan (cs : List Char) : Option (Piece × List Char) :=
  match splitBlank cs with
  | (_, []) => none
  | (blank, c :: rest) =>
    let bite := Bite.first c rest
    some (⟨blank, bite.taken, bite.kind⟩, bite.rest)

namespace Piece

theorem text_append_of_scan {cs rest : List Char} {p : Piece} (h : scan cs = some (p, rest)) :
    p.text ++ rest = cs := by
  have hcs := splitBlank_append cs
  unfold scan at h
  split at h
  · simp at h
  · next blank c ds heq =>
    rw [heq] at hcs
    cases h
    simp [text, (Bite.first_splits c ds).append, ← hcs]

theorem body_ne_nil_of_scan {cs rest : List Char} {p : Piece} (h : scan cs = some (p, rest)) :
    p.body ≠ [] := by
  unfold scan at h
  split at h
  · simp at h
  · next blank c ds _ =>
    cases h
    exact (Bite.first_splits c ds).ne_nil

theorem length_lt_of_scan {cs rest : List Char} {p : Piece} (h : scan cs = some (p, rest)) :
    rest.length < cs.length := by
  have hpos := List.length_pos_iff.2 (body_ne_nil_of_scan h)
  rw [← text_append_of_scan h]
  simp only [text, List.length_append]
  omega

end Piece

/-- All pieces of a text, and the blanks behind the last one. -/
def pieces (cs : List Char) : List Piece × List Char :=
  match _h : Piece.scan cs with
  | none => ([], cs)
  | some (p, rest) =>
    let s := pieces rest
    (p :: s.1, s.2)
termination_by cs.length
decreasing_by exact Piece.length_lt_of_scan _h

end TemplateIdl
