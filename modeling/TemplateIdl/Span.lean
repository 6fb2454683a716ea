import TemplateIdl.Text.Position

/-!
# Span — stretches of a source text

- `Span`, a place together with a length in bytes
- `Span.merge`, the smallest stretch that covers two
- `Span.slice`, the text that a stretch covers, where it lies on character boundaries
-/

namespace TemplateIdl

/-- A stretch of text: where it starts and how many bytes it covers. As with places, texts of
`2 ^ 32` bytes or more are left out: the length has no limit. -/
structure Span extends Position where
  /-- Length in bytes. -/
  len : Nat
deriving DecidableEq, Inhabited

namespace Span

/-- The empty stretch at a place. -/
def point (p : Position) : Span := ⟨p, 0⟩

/-- The stretch that starts at `p` and covers the characters `cs`. -/
def covering (p : Position) (cs : List Char) : Span := ⟨p, byteLength cs⟩

/-- Byte offset behind the last byte. -/
def stop (s : Span) : Nat := s.offset + s.len

/-- Whether nothing is covered. -/
def isEmpty (s : Span) : Bool := s.len == 0

/-- The smallest stretch that covers both; line and column come from the one that starts
first. -/
def merge (s t : Span) : Span :=
  let first := if s.offset ≤ t.offset then s else t
  { first with len := max s.stop t.stop - first.offset }

/-- Line and column, as they are shown in messages. -/
def text (s : Span) : String := s.line.repr ++ ":" ++ s.col.repr

/-! ## Slicing -/

/-- What is left of `cs` behind its first `n` bytes, unless that cuts a character or passes the
end. -/
def dropBytes : Nat → List Char → Option (List Char)
  | 0, cs => some cs
  | _ + 1, [] => none
  | n + 1, c :: cs => if c.utf8Size ≤ n + 1 then dropBytes (n + 1 - c.utf8Size) cs else none
termination_by structural _ cs => cs

/-- The first `n` bytes of `cs`, unless that cuts a character or passes the end. -/
def takeBytes : Nat → List Char → Option (List Char)
  | 0, _ => some []
  | _ + 1, [] => none
  | n + 1, c :: cs =>
    if c.utf8Size ≤ n + 1 then (takeBytes (n + 1 - c.utf8Size) cs).map (c :: ·) else none
termination_by structural _ cs => cs

/-- The characters covered, if the stretch lies inside `cs` on character boundaries. -/
def slice? (s : Span) (cs : List Char) : Option (List Char) :=
  (dropBytes s.offset cs).bind (takeBytes s.len)

/-- The text covered, if the stretch lies inside `source` on character boundaries. -/
def slice (s : Span) (source : String) : Option String :=
  (s.slice? source.toList).map String.ofList

theorem dropBytes_append (cs ds : List Char) : dropBytes (byteLength cs) (cs ++ ds) = some ds := by
  induction cs with
  | nil => unfold dropBytes; cases ds <;> rfl
  | cons c cs ih =>
    obtain ⟨k, hk⟩ : ∃ k, c.utf8Size + byteLength cs = k + 1 :=
      ⟨c.utf8Size + byteLength cs - 1, by have := c.utf8Size_pos; omega⟩
    simp only [byteLength_cons, List.cons_append, hk]
    unfold dropBytes
    rw [if_pos (by omega), show k + 1 - c.utf8Size = byteLength cs by omega, ih]

theorem takeBytes_append (cs ds : List Char) :
    takeBytes (byteLength cs) (cs ++ ds) = some cs := by
  induction cs with
  | nil => unfold takeBytes; cases ds <;> rfl
  | cons c cs ih =>
    obtain ⟨k, hk⟩ : ∃ k, c.utf8Size + byteLength cs = k + 1 :=
      ⟨c.utf8Size + byteLength cs - 1, by have := c.utf8Size_pos; omega⟩
    simp only [byteLength_cons, List.cons_append, hk]
    unfold takeBytes
    rw [if_pos (by omega), show k + 1 - c.utf8Size = byteLength cs by omega, ih]
    rfl

/-- A stretch that starts behind `before` and covers `body` slices `body`. -/
theorem slice?_covering (before body rest : List Char) :
    (covering (Position.start.after before) body).slice? (before ++ (body ++ rest))
      = some body := by
  simp [slice?, covering, Position.start, dropBytes_append, takeBytes_append]

end Span

end TemplateIdl
