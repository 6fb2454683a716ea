import TemplateIdl.Proofs.Decl.FileImage
import TemplateIdl.Proofs.Decl.FileRead
import TemplateIdl.Proofs.Decl.Legible

/-!
# Round trip of files

* `Interface.parse_text`, a well-formed file is read from its text, up to places;
* `Interface.reparse`, so the text of what was read from a text is read as the same again.
-/

namespace TemplateIdl

namespace Interface

/-- A well-formed file is read from its own text. -/
theorem parse_text {m : Interface} (h : m.WellFormed)
    (hpaths : ∀ p ∈ m.includePaths, '>' ∉ p.toList) :
    ∃ m', parse m.text = .ok m' ∧ m'.eraseSpans = m.eraseSpans := by
  obtain ⟨he, hat⟩ := at_ofSource (legible h hpaths) (chars_words h).symm
  obtain ⟨m', s', hrun, hsame⟩ := Parse.runs_interface h hat
  exact ⟨m', parseWith_eq_ok.2 ⟨he, s', hrun⟩, hsame⟩

/-- The text of a file that was read is read again, as the same file up to places and so with the
same text. Only an included path with a closing bracket is printed as something else. -/
theorem reparse {source : String} {m : Interface} (h : parse source = .ok m)
    (hpaths : ∀ p ∈ m.includePaths, '>' ∉ p.toList) :
    ∃ m', parse m.text = .ok m' ∧ m'.eraseSpans = m.eraseSpans ∧ m'.text = m.text := by
  obtain ⟨m', hparse, hsame⟩ := parse_text (wellFormed_of_parse h) hpaths
  refine ⟨m', hparse, hsame, ?_⟩
  rw [← text_eraseSpans m', hsame, text_eraseSpans m]

/-- A file with members out of order and with a comment in a default. -/
def gridFile : String :=
  "#include \"Object.h\"
namespace geo \x7b
  template<T = \x7bA, V<U<2> >\x7d> class Grid \x7b
    int n = max<int>(1, /* one */ 2);
    Grid(T t);
  \x7d;
\x7d"

/-- The file is read, and so is its text, in which the members are grouped. -/
theorem gridFile_reparse : ∃ m m', parse gridFile = .ok m ∧ m.includePaths = ["Object.h"] ∧
    parse m.text = .ok m' ∧ m'.eraseSpans = m.eraseSpans ∧ m'.text = m.text := by
  have hread : (parse gridFile).toOption.map includePaths = some ["Object.h"] := by
    decide +kernel
  rcases hparse : parse gridFile with e | m
  · rw [hparse] at hread
    cases hread
  · rw [hparse] at hread
    have hpaths : m.includePaths = ["Object.h"] := Option.some.inj hread
    have hclose : ∀ p ∈ m.includePaths, '>' ∉ p.toList := by
      rw [hpaths]
      decide
    obtain ⟨m', h⟩ := reparse hparse hclose
    exact ⟨m, m', rfl, hpaths, h⟩

end Interface

end TemplateIdl
