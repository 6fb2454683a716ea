/-!
# Position — places in a text

A place in a text is told in two ways at once: by the number of UTF-8 bytes before it, and by
its line and column for a reader. All three are natural numbers without a bound. Numbers of 32 bits
are the same as long as they suffice, so texts of `2 ^ 32` bytes or more are left out.

- `Position` with `Position.start`, the place before the first character
- `Position.next` and `Position.after`, the place behind one or more characters
- `byteLength`, the number of bytes a text takes
-/

namespace TemplateIdl

/-- A place in a text. Lines and columns count from 1, and columns count bytes. The numbers are meant
for texts of less than `2 ^ 32` bytes: no limit is put on them, so they never wrap around. -/
structure Position where
  /-- Bytes before the place. -/
  offset : Nat
  /-- Line, counted from 1. -/
  line : Nat
  /-- Byte column in the line, counted from 1. -/
  col : Nat
deriving DecidableEq, Inhabited

/-- Number of bytes that UTF-8 needs for `cs`. -/
def byteLength : List Char → Nat
  | [] => 0
  | c :: cs => c.utf8Size + byteLength cs

@[simp] theorem byteLength_nil : byteLength [] = 0 := rfl

@[simp] theorem byteLength_cons (c : Char) (cs : List Char) :
    byteLength (c :: cs) = c.utf8Size + byteLength cs := rfl

@[simp] theorem byteLength_append (cs ds : List Char) :
    byteLength (cs ++ ds) = byteLength cs + byteLength ds := by
  induction cs with
  | nil => simp
  | cons c cs ih => simp [ih, Nat.add_assoc]

namespace Position

/-- The place before the first character of a text. -/
def start : Position := ⟨0, 1, 1⟩

/-- The place behind `c`: a line feed opens a new line, any other character moves the column. -/
def next (p : Position) (c : Char) : Position :=
  if c = '\n' then ⟨p.offset + 1, p.line + 1, 1⟩
  else ⟨p.offset + c.utf8Size, p.line, p.col + c.utf8Size⟩

/-- The place behind all of `cs`. -/
def after (p : Position) (cs : List Char) : Position :=
  cs.foldl next p

@[simp] theorem after_nil (p : Position) : p.after [] = p := rfl

@[simp] theorem after_cons (p : Position) (c : Char) (cs : List Char) :
    p.after (c :: cs) = (p.next c).after cs := rfl

@[simp] theorem after_append (p : Position) (cs ds : List Char) :
    p.after (cs ++ ds) = (p.after cs).after ds := by
  simp [after]

@[simp] theorem offset_next (p : Position) (c : Char) :
    (p.next c).offset = p.offset + c.utf8Size := by
  unfold next
  split
  · next h => subst h; rfl
  · rfl

@[simp] theorem offset_after (p : Position) (cs : List Char) :
    (p.after cs).offset = p.offset + byteLength cs := by
  induction cs generalizing p with
  | nil => simp
  | cons c cs ih => simp [ih, Nat.add_assoc]

end Position

end TemplateIdl
