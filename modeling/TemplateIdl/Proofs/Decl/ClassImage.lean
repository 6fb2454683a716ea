import TemplateIdl.Proofs.Decl.Image

/-!
# Image of the rules for classes — members and classes that are read are well formed

* `Parse.yields_member`, members of a class;
* `Parse.yields_classOrForward`, classes and forward declarations.
-/

namespace TemplateIdl

/-- A special name stands between two double underscores. -/
theorem eq_of_specialName? {cs name : List Char} (h : specialName? cs = some name) :
    cs = "__".toList ++ name ++ "__".toList := by
  unfold specialName? at h
  split at h
  · next rest =>
    split at h
    · next c front hrev =>
      have hrest : rest = (c :: front).reverse ++ ['_', '_'] := by
        rw [← List.reverse_reverse rest, hrev]
        simp
      rw [hrest, ← Option.some.inj h]
      rfl
    · cases h
  · cases h

theorem Typename.WellFormed.isClassName {t : Typename} (h : t.WellFormed false) :
    IsClassName t.name := by
  have hwf := h false none
  obtain ⟨ns, name, args⟩ := t
  rw [TypeExpr.ofTypename] at hwf
  generalize Typename.isBasic ⟨ns, name, args⟩ = b at hwf
  cases hwf with
  | basic hn => exact .inl hn
  | named _ hn _ => exact .inr hn

namespace Parse

variable {s : TokenStream} {h : ClassHead} {template : Option Template} {start : Span}

/-! ## Callables -/

theorem yields_operatorSymbol (hs : Sound s) :
    Yields operatorSymbol s fun _ s' => Sound s' := by
  refine yields_advance.bind ?_
  intro t s1 h1
  have hs1 : Sound s1 := h1.2 ▸ hs.advance.sound
  have hpair : ∀ (k : Kind) (o : OperatorSymbol) (bad : Parse OperatorSymbol),
      (∀ s', Yields bad s' fun _ s' => Sound s') →
      Yields (do if ← eat k then pure o else bad) s1 fun _ s' => Sound s' := by
    intro k o bad hbad
    refine (yields_eat_sound k hs1).bind ?_
    intro b s2 h2
    split
    · exact .pure h2
    · exact hbad s2
  dsimp only
  split
  · exact .pure hs1
  split
  · exact hpair _ _ _ fun _ => Yields.fail
  split
  · exact hpair _ _ _ fun _ => Yields.fail
  · exact Yields.fail

theorem yields_methodRest {result : ReturnType} {name : String} (hs : Sound s)
    (ht : ∀ t ∈ template, t.WellFormed) (hr : result.WellFormed)
    (hn : isIdentifier name = true) :
    Yields (methodRest h template start result name) s
      fun m s' => m.WellFormed h ∧ Sound s' := by
  refine (yields_arguments hs).bind ?_
  intro args s1 h1
  refine (yields_eat_sound .kwConst h1.2).bind ?_
  intro isConst s2 h2
  exact yields_end h2 fun span => .method hn hr h1.1 ht

theorem yields_staticRest (hs : Sound s) (ht : ∀ t ∈ template, t.WellFormed) :
    Yields (staticRest h template start) s fun m s' => m.WellFormed h ∧ Sound s' := by
  refine (yields_returnType hs).bind ?_
  intro result s1 h1
  refine (yields_name h1.2).bind ?_
  intro name s2 h2
  refine (yields_arguments h2.2).bind ?_
  intro args s3 h3
  exact yields_end h3.2 fun span => .static h2.1 h1.1 h3.1 ht

theorem yields_ctorRest {t : Token} (hs : Sound s) (ht : ∀ t ∈ template, t.WellFormed)
    (hn : isIdentifier t.lexeme = true) :
    Yields (ctorRest h template start t) s fun m s' => m.WellFormed h ∧ Sound s' := by
  unfold ctorRest
  split
  · next name hname =>
    split
    · exact Yields.fail
    · refine (yields_arguments hs).bind ?_
      intro args s1 h1
      refine yields_end h1.2 fun span => ?_
      have hlexeme : "__" ++ String.ofList name ++ "__" = t.lexeme := by
        apply String.toList_inj.1
        rw [eq_of_specialName? hname]
        simp
      refine .special (by rwa [hlexeme]) ?_ h1.1
      rw [hlexeme, hname, String.toList_ofList]
  · next hname =>
    split
    · next hclass =>
      refine (yields_arguments hs).bind ?_
      intro args s1 h1
      refine yields_end h1.2 fun span => ?_
      rw [hclass] at hn hname ⊢
      exact .ctor hn hname h1.1 ht
    · exact Yields.fail

theorem yields_templatableMember (hs : Sound s) (ht : ∀ t ∈ template, t.WellFormed) :
    Yields (templatableMember h template start) s fun m s' => m.WellFormed h ∧ Sound s' := by
  refine (yields_eat_sound .kwStatic hs).bind ?_
  intro b s1 h1
  split
  · exact yields_staticRest h1 ht
  refine .peek_bind ?_
  refine .checkSecond_bind fun b => ?_
  split
  · next hk =>
    simp only [Bool.and_eq_true, decide_eq_true_eq] at hk
    have hp : isTokenText s1.peek.kind s1.peek.lexeme = true :=
      h1.proper (by rw [hk.1]; decide)
    rw [hk.1, isTokenText_identifier] at hp
    refine .skip_bind ?_
    exact yields_ctorRest h1.advance.sound ht hp
  · refine (yields_returnType h1).bind ?_
    intro result s4 h4
    refine (yields_name h4.2).bind ?_
    intro name s5 h5
    exact yields_methodRest h5.2 ht h4.1 h5.1

theorem yields_typedMember (hs : Sound s) :
    Yields (typedMember h start) s fun m s' => m.WellFormed h ∧ Sound s' := by
  refine (yields_typeUse hs).bind ?_
  intro type s1 h1
  refine (yields_eat_sound .kwOperator h1.2).bind ?_
  intro b s2 h2
  split
  · refine (yields_operatorSymbol h2).bind ?_
    intro symbol s3 h3
    refine (yields_arguments h3).bind ?_
    intro args s4 h4
    refine (yields_eat_sound .kwConst h4.2).bind ?_
    intro isConst s5 h5
    exact yields_end h5 fun span => .operator ⟨type, h1.1, rfl⟩ h4.1
  · refine (yields_name h2).bind ?_
    intro name s3 h3
    refine .check_bind fun b => ?_
    split
    · exact yields_methodRest h3.2 (by simp) ⟨type, h1.1, rfl⟩ h3.1
    · exact yields_defaultEnd h3.2 fun d? span hd => .property h1.1 h3.1 hd

/-! ## Members -/

/-- All members of a class with the head `h`. -/
theorem yields_member (hs : Sound s) :
    Yields (member h) s fun m s' => m.WellFormed h ∧ Sound s' := by
  refine .peek_bind ?_
  split
  · exact Yields.throw
  · refine (yields_enumeration h.namespaces hs).bind ?_
    intro d s2 h2
    exact .pure ⟨.enumeration h2.1, h2.2⟩
  · refine (yields_templateHeader hs).bind ?_
    intro template s2 h2
    exact yields_templatableMember h2.2 (by simpa using h2.1)
  · exact yields_templatableMember hs (by simp)
  · refine .checkSecond_bind fun b => ?_
    split
    · exact yields_templatableMember hs (by simp)
    · exact yields_typedMember hs
  · exact yields_typedMember hs
  · exact yields_typedMember hs
  · split
    · exact yields_typedMember hs
    · exact Yields.fail

/-! ## Classes -/

theorem yields_classBody {ns : List String} (hs : Sound s) (hh : h.WellFormed ns) :
    Yields (classBody h start) s fun c s' => c.WellFormed ns ∧ Sound s' := by
  refine (yields_skip_sound .leftBrace hs).bind ?_
  intro _ s1 h1
  refine (yields_manyWhile (fun s hs _ => yields_member hs) h1).bind ?_
  intro ms s2 h2
  refine (yields_skip_sound .rightBrace h2.2).bind ?_
  intro _ s3 h3
  exact yields_end h3 fun span => ⟨h, ms, span, hh, h2.1, rfl⟩

theorem yields_optionalParent (hs : Sound s) :
    Yields optionalParent s fun p s' => (∀ t ∈ p, t.WellFormed false) ∧ Sound s' := by
  refine (yields_eat_sound .colon hs).bind ?_
  intro b s1 h1
  split
  · refine (yields_typeUse h1).bind ?_
    intro t s2 h2
    exact .pure ⟨by simpa using h2.1, h2.2⟩
  · exact .pure ⟨by simp, h1⟩

/-- A class or a forward declaration inside the namespaces `ns`. -/
theorem yields_classOrForward (ns : List String) (hs : Sound s)
    (ht : ∀ t ∈ template, t.WellFormed) :
    Yields (classOrForward ns template start) s fun d s' => d.WellFormed ns ∧ Sound s' := by
  refine (yields_eat_sound .kwVirtual hs).bind ?_
  intro isVirtual s1 h1
  refine (yields_skip_sound .kwClass h1).bind ?_
  intro _ s2 h2
  refine .peek_bind ?_
  refine (yields_typename h2).bind ?_
  intro name s4 h4
  refine (yields_optionalParent h4.2).bind ?_
  intro parent s5 h5
  refine (yields_eat_sound .semicolon h5.2).bind ?_
  intro b s6 h6
  split
  · refine (yields_spanFrom start).bind ?_
    intro span s7 h7
    rw [h7]
    exact .pure ⟨.forward h4.1 h5.1 ht, h6⟩
  split
  · refine (yields_classBody h6 ⟨h4.1.isClassName, ht, h5.1, rfl⟩).bind ?_
    intro c s7 h7
    exact .pure ⟨.cls h7.1, h7.2⟩
  · exact Yields.fail

end Parse

end TemplateIdl
