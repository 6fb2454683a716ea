import TemplateIdl.Proofs.TypeExpr.Read

/-!
# Round trip of type uses

* `TypeExpr.parse_roundTrip`, what is read from texts are the well-formed type uses,
  each of which is read from its own text; so no two of them have the same text.
-/

namespace TemplateIdl

namespace TypeExpr

theorem wellFormed_of_parse {source : String} {t : TypeExpr} (h : parse source = .ok t) :
    t.WellFormed false := by
  obtain ⟨he, s', hrun, -⟩ := parse_eq_ok.1 h
  exact (Parse.yields_typeIn false (clean_ofSource he).sound t s' hrun).1

theorem parse_text {t : TypeExpr} (h : t.WellFormed false) : parse t.text = .ok t := by
  have hlegible : Legible t.words [] := by
    have hf : Follows 0 [] [] := by simp [Follows, Starts]
    simpa [t.flush_words.lead_empty] using legible h hf .nil isGap_empty
  have htext : t.text.toList = Token.chars t.words ++ [] := by rw [chars_words, List.append_nil]
  obtain ⟨he, hat⟩ := at_ofSource hlegible htext
  rw [← t.flush_words.lead_empty, ← List.append_nil (lead "" t.words)] at hat
  obtain ⟨_, s', hrun, rfl, hend⟩ := Parse.runs_typeUse h hat (by simp [EndsType])
  exact parse_eq_ok.2 ⟨he, s', hrun, hend.peek_kind_eq (by simp)⟩

/-- What is read from a text as a type use is well formed. A well-formed type use is read from its
own text, so that no two of them have the same text. -/
theorem parse_roundTrip :
    (∀ (source : String) (t : TypeExpr), parse source = .ok t → t.WellFormed false) ∧
    (∀ t : TypeExpr, t.WellFormed false → parse t.text = .ok t) ∧
    ∀ t u : TypeExpr, t.WellFormed false → u.WellFormed false → t.text = u.text → t = u := by
  refine ⟨fun source t h => wellFormed_of_parse h, fun t h => parse_text h, ?_⟩
  intro t u ht hu he
  have htext := parse_text ht
  rw [he, parse_text hu] at htext
  cases htext
  rfl

/-- A type use with a built-in type, an integer and nested brackets among its arguments. -/
def nested : TypeExpr :=
  .mk ["std"] "map"
    [.mk [] "unsigned char" [] true none true,
     .mk [] "Grid" [.mk [] "4" [] false none false] false (some .ref) false]
    true (some .raw) false

/-- The type use is well formed and is read from its text. -/
theorem nested_roundTrip :
    nested.text = "const std::map<const unsigned char, Grid<4>&>@" ∧ nested.WellFormed false ∧
      parse "const std::map<const unsigned char, Grid<4>&>@" = .ok nested := by
  have htext : nested.text = "const std::map<const unsigned char, Grid<4>&>@" := by decide
  have hint : IsInteger "4" := isInteger_iff.2 (by decide)
  have hwf : nested.WellFormed false := by
    refine .named (by decide) (by decide) ?_
    intro a ha
    rcases List.mem_cons.1 ha with rfl | ha
    · exact .basic (by decide)
    · rw [List.mem_singleton.1 ha]
      exact .named (by decide) (by decide) (by simpa using .integer hint)
  refine ⟨htext, hwf, ?_⟩
  rw [← htext]
  exact parse_roundTrip.2.1 nested hwf

end TypeExpr

end TemplateIdl
