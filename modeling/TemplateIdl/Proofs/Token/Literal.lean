import TemplateIdl.Token.Lexed

/-!
# Literal — texts that are written out

To look at a character of a string, the string is decoded from its first byte on. The characters of
a literal are known without that, and so are those of literals that are put together.

* `append_eq_ofList`, the characters of texts that are put together;
* `Lexed.ofChars` and `Lexed.ofSource_ofList`, the tokens of a text by its characters.
-/

namespace TemplateIdl

/-- The characters of two texts behind each other. -/
theorem append_eq_ofList {s t : String} {cs ds : List Char} (hs : s = String.ofList cs)
    (ht : t = String.ofList ds) : s ++ t = String.ofList (cs ++ ds) := by
  rw [hs, ht, String.ofList_append]

namespace Lexed

/-- The tokens of a text that is a list of characters. -/
def ofChars (cs : List Char) : Lexed :=
  let s := pieces cs
  ofPieces s.2 Position.start [] s.1

/-- The tokens of a text depend only on its characters. -/
theorem ofSource_ofList (cs : List Char) : ofSource (String.ofList cs) = ofChars cs := by
  rw [ofSource, String.toList_ofList]
  rfl

end Lexed

end TemplateIdl
