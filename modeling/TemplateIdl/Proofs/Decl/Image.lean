import TemplateIdl.Proofs.Decl.Arguments

/-!
# Image of the rules for declarations — what is read is well formed

* `Parse.yields_templateHeader` and `Parse.yields_returnType`, what declarations share;
* `Parse.yields_member` and `Parse.yields_classOrForward`, classes;
* `Parse.yields_declaration`, all declarations;
* `Interface.wellFormed_of_parse`, whole files.
-/

namespace TemplateIdl

open DefaultValue

namespace Parse

variable {s : TokenStream}

/-! ## What declarations share -/

theorem yields_typeUse (h : Sound s) :
    Yields typeUse s fun t s' => t.WellFormed false ∧ Sound s' :=
  yields_typeIn false h

theorem yields_returnType (h : Sound s) :
    Yields returnType s fun r s' => r.WellFormed ∧ Sound s' := by
  refine (yields_typeUse h).bind ?_
  intro t s1 h1
  exact .pure ⟨⟨t, h1.1, rfl⟩, h1.2⟩

theorem yields_typeList (h : Sound s) :
    Yields (commaSeparated typeUse) s
      fun ts s' => (∀ t ∈ ts, t.WellFormed false) ∧ ts ≠ [] ∧ Sound s' :=
  yields_commaSeparated_all (fun _ hs => yields_typeUse hs) (fun _ hs _ => hs.advance.sound) h

theorem yields_choices (h : Sound s) :
    Yields choices s fun ts s' => (∀ t ∈ ts, t.WellFormed false) ∧ Sound s' := by
  refine (yields_eat_sound .equal h).bind ?_
  intro b s1 h1
  split
  · refine (yields_skip_sound .leftBrace h1).bind ?_
    intro _ s2 h2
    refine .check_bind fun b => ?_
    have hclose : ∀ (ts : List TypeExpr) (s4 : TokenStream), (∀ t ∈ ts, t.WellFormed false) →
        Sound s4 → Yields (do discard (expect .rightBrace); pure ts) s4
          fun ts s' => (∀ t ∈ ts, t.WellFormed false) ∧ Sound s' := by
      intro ts s4 hts h4
      refine (yields_skip_sound .rightBrace h4).bind ?_
      intro _ s5 h5
      exact .pure ⟨hts, h5⟩
    dsimp only
    split
    · exact hclose [] _ (by simp) h2
    · refine (yields_typeList h2).bind ?_
      intro ts s4 h4
      exact hclose ts s4 h4.1 h4.2.2
  · exact .pure ⟨by simp, h1⟩

theorem yields_templateParam (h : Sound s) :
    Yields templateParam s fun p s' => p.WellFormed ∧ Sound s' := by
  refine (yields_name h).bind ?_
  intro name s1 h1
  refine (yields_choices h1.2).bind ?_
  intro types s2 h2
  exact .pure ⟨⟨h1.1, h2.1⟩, h2.2⟩

/-- A template header has at least one parameter. -/
theorem yields_templateHeader (h : Sound s) :
    Yields templateHeader s fun t s' => t.WellFormed ∧ Sound s' := by
  refine (yields_skip_sound .kwTemplate h).bind ?_
  intro _ s1 h1
  refine (yields_bracketed _ (fun s hs => yields_templateParam hs) h1).bind ?_
  intro params s2 h2
  exact .pure ⟨⟨h2.1, h2.2.1⟩, h2.2.2⟩

/-- The end of a declaration, behind which its place is known. -/
theorem yields_end {α : Type} {start : Span} {make : Span → α} {P : α → Prop} (h : Sound s)
    (hmake : ∀ span, P (make span)) :
    Yields (do
      discard (expect .semicolon)
      let span ← spanFrom start
      pure (make span)) s fun a s' => P a ∧ Sound s' := by
  refine (yields_skip_sound .semicolon h).bind ?_
  intro _ s1 h1
  refine (yields_spanFrom start).bind ?_
  intro span s2 h2
  rw [h2]
  exact .pure ⟨hmake span, h1⟩

/-- A default that a semicolon follows, and what is made of it. -/
theorem yields_defaultEnd {α : Type} {start : Span} {make : Option String → Span → α} {P : α → Prop}
    (h : Sound s) (hmake : ∀ d? span, WellFormedDefault d? → P (make d? span)) :
    Yields (do
      let default? ← optionalDefault
      discard (expect .semicolon)
      let span ← spanFrom start
      pure (make default? span)) s fun a s' => P a ∧ Sound s' := by
  refine (yields_optionalDefault h).bind ?_
  intro d? s1 h1
  obtain ⟨hd, hs, hfits⟩ := h1
  refine .expect_bind fun hk => ?_
  -- the text of a default is cut where its tokens end, at the semicolon
  have halike := alike_of_stop hs hk (.inr rfl)
  obtain ⟨hfit, -⟩ := hfits [.sign .semicolon] rfl halike
  refine (yields_spanFrom start).bind ?_
  intro span s3 h3
  rw [h3]
  exact .pure ⟨hmake d? span fun d hdd => ⟨hd d hdd, hfit d hdd⟩, hs.advance.sound⟩

/-! ## Enumerations -/

/-- One enumerator, and all others by `again` if a comma follows. -/
def enumeratorRule (again : Unit → Parse (List String)) : Unit → Parse (List String) := fun _ => do
  if ← check .rightBrace then pure []
  else
    let name ← expectIdentifier
    if ← eat .equal then skipEnumeratorValue
    if ← eat .comma then
      let names ← again ()
      pure (name :: names)
    else pure [name]

theorem enumerators_eq : enumerators = fix enumeratorRule () := rfl

theorem yields_skipEnumeratorValue (h : Clean s) :
    Yields skipEnumeratorValue s fun _ s' => Sound s' := by
  intro u s' hrun
  unfold skipEnumeratorValue at hrun
  dsimp only at hrun
  split at hrun
  · cases hrun
  · cases hrun
    exact (h.skip _).sound

theorem yields_enumerators (h : Sound s) :
    Yields enumerators s fun ns s' => (∀ n ∈ ns, isIdentifier n = true) ∧ Sound s' := by
  have hunfold : ∀ n s, Sound s → Yields (unfold enumeratorRule n ()) s
      fun ns s' => (∀ n ∈ ns, isIdentifier n = true) ∧ Sound s' := by
    intro n
    induction n with
    | zero => intro s _ ns s' hrun; cases hrun
    | succ n ih =>
      intro s hs
      refine .check_bind fun b => ?_
      split
      · exact .pure ⟨by simp, hs⟩
      refine (yields_name hs).bind ?_
      intro name s1 h1
      -- what follows an enumerator is read alike with and without a value
      have hmore : ∀ s, Sound s → Yields (do
          if ← eat .comma then
            let names ← unfold enumeratorRule n ()
            pure (name :: names)
          else pure [name]) s fun ns s' => (∀ n ∈ ns, isIdentifier n = true) ∧ Sound s' := by
        intro s hs
        refine (yields_eat_sound .comma hs).bind ?_
        intro b s2 h2
        split
        · refine (ih s2 h2).bind ?_
          intro names s3 h3
          exact .pure ⟨by simpa using ⟨h1.1, h3.1⟩, h3.2⟩
        · exact .pure ⟨by simpa using h1.1, h2⟩
      refine (yields_eat .equal).bind ?_
      intro b s2 h2
      cases b with
      | true =>
        refine (yields_skipEnumeratorValue (h2.2 ▸ h1.2.advance)).bind ?_
        intro _ s3 h3
        exact hmore s3 h3
      | false => exact hmore s2 (h2.2 ▸ h1.2)
  rw [enumerators_eq]
  exact .fix (hunfold _ s h)

/-- Enumerations inside the namespaces `ns`. -/
theorem yields_enumeration (ns : List String) (h : Sound s) :
    Yields (enumeration ns) s fun d s' => d.WellFormed ns ∧ Sound s' := by
  refine (yields_expect_sound .kwEnum h).bind ?_
  intro start s1 h1
  -- scoped enumerations differ from the others in their keywords only
  have hrest : ∀ (isScoped : Bool) (s : TokenStream), Sound s → Yields (do
      let name ← expectIdentifier
      discard (expect .leftBrace)
      let names ← enumerators
      discard (expect .rightBrace)
      discard (expect .semicolon)
      let span ← spanFrom start.span
      pure ⟨name, names, isScoped, ns, span⟩) s
        fun (d : EnumDecl) s' => d.WellFormed ns ∧ Sound s' := by
    intro isScoped s hs
    refine (yields_name hs).bind ?_
    intro name s3 h3
    refine (yields_skip_sound .leftBrace h3.2).bind ?_
    intro _ s4 h4
    refine (yields_enumerators h4).bind ?_
    intro names s5 h5
    refine (yields_skip_sound .rightBrace h5.2).bind ?_
    intro _ s6 h6
    exact yields_end h6
      fun span => ⟨h3.1, h5.1, rfl⟩
  refine (yields_eat_sound .kwClass h1).bind ?_
  intro b s2 h2
  dsimp only
  split
  · refine Yields.bind (P := fun _ s' => Sound s') (.pure h2) ?_
    exact fun b s3 h3 => hrest b s3 h3
  · refine (yields_eat_sound .kwStruct h2).bind ?_
    exact fun b s3 h3 => hrest b s3 h3

end Parse

end TemplateIdl
