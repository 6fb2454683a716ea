import TemplateIdl.Proofs.Decl.ClassImage

/-!
# Image of the rules for files — all declarations that are read are well formed

* `Parse.yields_declaration`, one declaration with all that it contains;
* `Interface.wellFormed_of_parse`, whole files.
-/

namespace TemplateIdl

namespace Parse

variable {s : TokenStream} {ns : List String} {template : Option Template} {start : Span}

theorem yields_inclusion (hs : Sound s) :
    Yields inclusion s fun d s' => IsIncludePath d.path ∧ Sound s' := by
  refine (yields_expect .includeDirective).bind ?_
  intro t s1 h1
  obtain ⟨rfl, hk, rfl⟩ := h1
  have hp : isTokenText s.peek.kind s.peek.lexeme = true := hs.proper (by rw [hk]; decide)
  rw [hk] at hp
  split
  · next path hpath =>
    exact .pure ⟨isIncludePath_of_includePath? hp hpath, hs.advance.sound⟩
  · exact Yields.fail

theorem yields_typedef (hs : Sound s) :
    Yields (typedef ns) s fun d s' => (Declaration.typedef d).WellFormed ns ∧ Sound s' := by
  refine (yields_expect_sound .kwTypedef hs).bind ?_
  intro start s1 h1
  refine .peek_bind ?_
  refine (yields_typeUse h1).bind ?_
  intro target s3 h3
  split
  · exact Yields.fail
  split
  · exact Yields.fail
  · next hargs hplain =>
    rw [Bool.not_eq_true, Bool.not_eq_false'] at hargs
    rw [Bool.not_eq_true, Bool.or_eq_false_iff, Option.isSome_eq_false_iff,
      Option.isNone_iff_eq_none] at hplain
    refine (yields_name h3.2).bind ?_
    intro newName s4 h4
    exact yields_end h4.2 fun span => .typedef h3.1 hargs hplain h4.1

theorem yields_functionOrVariable (hs : Sound s) (ht : ∀ t ∈ template, t.WellFormed) :
    Yields (functionOrVariable ns template start) s fun d s' => d.WellFormed ns ∧ Sound s' := by
  refine (yields_typeUse hs).bind ?_
  intro type s1 h1
  refine (yields_name h1.2).bind ?_
  intro name s2 h2
  refine .check_bind fun b => ?_
  split
  · refine (yields_arguments h2.2).bind ?_
    intro args s4 h4
    exact yields_end h4.2 fun span => .function h2.1 ⟨type, h1.1, rfl⟩ h4.1 ht
  · exact yields_defaultEnd h2.2 fun d? span hd => .var h1.1 h2.1 hd ht

/-- A namespace, of which the content is read by `self`. -/
theorem yields_space {self : List String → Parse Declaration}
    (hself : ∀ ns s, Sound s → Yields (self ns) s fun d s' => d.WellFormed ns ∧ Sound s')
    (hs : Sound s) :
    Yields (space self ns) s fun d s' => d.WellFormed ns ∧ Sound s' := by
  refine (yields_expect_sound .kwNamespace hs).bind ?_
  intro start s1 h1
  refine (yields_name h1).bind ?_
  intro name s2 h2
  refine (yields_skip_sound .leftBrace h2.2).bind ?_
  intro _ s3 h3
  refine (yields_manyWhile (fun s hs _ => hself (ns ++ [name]) s hs) h3).bind ?_
  intro content s4 h4
  refine (yields_skip_sound .rightBrace h4.2).bind ?_
  intro _ s5 h5
  refine (yields_spanFrom start.span).bind ?_
  intro span s6 h6
  rw [h6]
  exact .pure ⟨.space h2.1 h4.1, h5⟩

theorem yields_declarationRule {self : List String → Parse Declaration}
    (hself : ∀ ns s, Sound s → Yields (self ns) s fun d s' => d.WellFormed ns ∧ Sound s')
    (hs : Sound s) :
    Yields (declarationRule self ns) s fun d s' => d.WellFormed ns ∧ Sound s' := by
  refine .peek_bind ?_
  split
  · refine (yields_inclusion hs).bind ?_
    intro d s2 h2
    exact .pure ⟨.inclusion h2.1, h2.2⟩
  · exact yields_space hself hs
  · refine (yields_typedef hs).bind ?_
    intro d s2 h2
    exact .pure h2
  · refine (yields_enumeration ns hs).bind ?_
    intro d s2 h2
    exact .pure ⟨.enumeration h2.1, h2.2⟩
  · exact yields_classOrForward ns hs (by simp)
  · exact yields_classOrForward ns hs (by simp)
  · refine (yields_templateHeader hs).bind ?_
    intro template s2 h2
    have ht : ∀ t ∈ some template, t.WellFormed := by simpa using h2.1
    refine .peek_bind ?_
    split
    · exact yields_classOrForward ns h2.2 ht
    · exact yields_functionOrVariable h2.2 ht
  · exact yields_functionOrVariable hs (by simp)
  · exact yields_functionOrVariable hs (by simp)
  · exact yields_functionOrVariable hs (by simp)
  · exact Yields.throw
  · split
    · exact yields_functionOrVariable hs (by simp)
    · exact Yields.fail

/-- All declarations that are read inside the namespaces `ns` are well formed there. -/
theorem yields_declaration (ns : List String) (hs : Sound s) :
    Yields (declaration ns) s fun d s' => d.WellFormed ns ∧ Sound s' := by
  have hunfold : ∀ n ns s, Sound s → Yields (unfold declarationRule n ns) s
      fun d s' => d.WellFormed ns ∧ Sound s' := by
    intro n
    induction n with
    | zero => intro ns s _ d s' hrun; cases hrun
    | succ n ih => exact fun ns s hs => yields_declarationRule ih hs
  exact .fix (hunfold _ ns s hs)

theorem yields_interface (hs : Sound s) : Yields interface s fun m _ => m.WellFormed := by
  refine (yields_manyWhile (fun s hs _ => yields_declaration [] hs) hs).bind ?_
  intro content s1 h1
  exact .pure h1.1

end Parse

/-- Whatever is read from a text is well formed. -/
theorem Interface.wellFormed_of_parse {source : String} {m : Interface}
    (h : parse source = .ok m) : m.WellFormed := by
  obtain ⟨he, s', hrun⟩ := parseWith_eq_ok.1 h
  exact Parse.yields_interface (clean_ofSource he).sound m s' hrun

end TemplateIdl
