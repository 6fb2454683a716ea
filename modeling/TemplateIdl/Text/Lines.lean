/-!
# Lines — texts and their line feeds

- `lines`, the lines of a text without their ends
- `line?`, one line by its number
- `joinLines`, texts with a line feed behind each
-/

namespace TemplateIdl

/-- The lines of a text. A line ends at a line feed, which is dropped together with one carriage
return before it; behind a last line feed no further line begins. -/
def lines : List Char → List (List Char)
  | [] => []
  | '\n' :: cs => [] :: lines cs
  | '\r' :: '\n' :: cs => [] :: lines cs
  | c :: cs =>
    match lines cs with
    | [] => [[c]]
    | l :: ls => (c :: l) :: ls

/-- The line with a given number, counted from 1. -/
def line? (cs : List Char) (number : Nat) : Option (List Char) :=
  if number = 0 then none else (lines cs)[number - 1]?

/-- The texts in order with a line feed behind each. -/
def joinLines (texts : List String) : String :=
  String.join (texts.map (· ++ "\n"))

@[simp] theorem joinLines_nil : joinLines [] = "" := rfl

@[simp] theorem joinLines_cons (t : String) (ts : List String) :
    joinLines (t :: ts) = t ++ "\n" ++ joinLines ts := by
  simp [joinLines]

@[simp] theorem joinLines_append (ss ts : List String) :
    joinLines (ss ++ ts) = joinLines ss ++ joinLines ts := by
  simp [joinLines]

end TemplateIdl
