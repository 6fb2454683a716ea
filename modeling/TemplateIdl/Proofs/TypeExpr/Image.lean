import TemplateIdl.Proofs.Grammar.Sound

/-!
# Image of the rules for types — what is read is well formed

* `Parse.yields_typeIn`, all type uses that are read are well formed;
* `Parse.yields_typename`, the same of names without qualifiers;
* `TypeExpr.parse_eq_ok`, the texts that are type uses as a whole.
-/

namespace TemplateIdl

/-! ## Well-formed names -/

/-- The names without qualifiers that can be written. -/
def Typename.WellFormed (inArgs : Bool) (t : Typename) : Prop :=
  ∀ isConst sign, (TypeExpr.ofTypename t isConst sign).WellFormed inArgs

theorem isBasic_basic {name : String} (h : name ∈ basicTypeNames) :
    (Typename.simple name).isBasic = true := by
  simpa [Typename.isBasic, Typename.simple] using h

theorem not_basic_of_isIdentifier {name : String} (h : isIdentifier name = true) :
    name ∉ basicTypeNames := by
  have hall : ∀ n ∈ basicTypeNames, isIdentifier n = false := by decide
  intro hn
  rw [hall name hn] at h
  cases h

theorem not_basic_of_isInteger {name : String} (h : IsInteger name) : name ∉ basicTypeNames := by
  have hall : ∀ n ∈ basicTypeNames, isTokenText .intLiteral n = false := by decide
  intro hn
  rw [isInteger_iff, hall name hn] at h
  cases h

theorem Typename.isBasic_eq_false {ns : List String} {name : String} {args : List TypeExpr}
    (h : name ∉ basicTypeNames) : (⟨ns, name, args⟩ : Typename).isBasic = false := by
  simp [Typename.isBasic, h]

namespace Typename.WellFormed

theorem basic {inArgs : Bool} {name : String} (h : name ∈ basicTypeNames) :
    (Typename.simple name).WellFormed inArgs := by
  intro isConst sign
  rw [TypeExpr.ofTypename, isBasic_basic h]
  exact .basic h

theorem integer {name : String} (h : IsInteger name) : (Typename.simple name).WellFormed true := by
  intro isConst sign
  rw [TypeExpr.ofTypename, Typename.simple, isBasic_eq_false (not_basic_of_isInteger h)]
  exact .integer h

theorem named {inArgs : Bool} {ns : List String} {name : String} {args : List TypeExpr}
    (hns : ∀ n ∈ ns, isIdentifier n = true) (hn : isIdentifier name = true)
    (hargs : ∀ a ∈ args, a.WellFormed true) :
    (⟨ns, name, args⟩ : Typename).WellFormed inArgs := by
  intro isConst sign
  rw [TypeExpr.ofTypename, isBasic_eq_false (not_basic_of_isIdentifier hn)]
  exact .named hns hn hargs

end Typename.WellFormed

theorem Typename.ofPath_eq {ns : List String} (hns : ∀ n ∈ ns, isIdentifier n = true)
    (name : String) (args : List TypeExpr) : Typename.ofPath ns name args = ⟨ns, name, args⟩ := by
  unfold Typename.ofPath
  split
  · exact absurd (hns "" (by simp)) (by decide)
  · rfl

namespace Parse

variable {s : TokenStream}

/-! ## Names -/

theorem yields_eat_sound (k : Kind) (h : Sound s) : Yields (eat k) s fun _ s' => Sound s' := by
  refine (yields_eat k).mono ?_
  intro b s' hb
  cases b with
  | true => rw [hb.2]; exact h.advance.sound
  | false => rw [hb.2]; exact h

theorem yields_typeSegment (h : Sound s) :
    Yields typeSegment s fun n s' => isIdentifier n = true ∧ Sound s' := by
  intro n s' hrun
  unfold typeSegment at hrun
  dsimp only at hrun
  split at hrun
  · next hk =>
    cases hrun
    have hp : isTokenText s.peek.kind s.peek.lexeme = true := h.proper (by rw [hk]; decide)
    rw [hk, isTokenText_identifier] at hp
    exact ⟨hp, h.advance.sound⟩
  · split at hrun <;> cases hrun

theorem yields_path (h : Sound s) :
    Yields path s fun p s' =>
      (∀ n ∈ p.1, isIdentifier n = true) ∧ isIdentifier p.2 = true ∧ Sound s' := by
  refine (yields_eat_sound .colonColon h).discard.bind ?_
  intro _ s1 hread
  obtain ⟨_, h1⟩ := hread
  refine (yields_typeSegment h1).bind ?_
  intro first s2 hread
  obtain ⟨hfirst, h2⟩ := hread
  refine (yields_manyWhile (P := fun n => isIdentifier n = true) (I := Sound) ?_ h2).bind ?_
  · intro s3 h3 _
    refine .skip_bind ?_
    exact yields_typeSegment h3.advance.sound
  · intro rest s3 hread
    obtain ⟨hrest, h3⟩ := hread
    have hall : ∀ n ∈ first :: rest, isIdentifier n = true := by
      simpa using ⟨hfirst, hrest⟩
    refine .pure ⟨fun n hn => hall n (List.dropLast_subset _ hn),
      hall _ List.getLastD_mem_cons, h3⟩

theorem yields_basicTypename (h : Sound s) (hk : s.peek.kind.isBasicType = true) :
    Yields basicTypename s fun t s' =>
      (∃ n ∈ basicTypeNames, t = .simple n) ∧ Sound s' := by
  refine .advance_bind ?_
  split
  · refine .expect_bind fun _ => ?_
    exact .pure ⟨⟨"unsigned char", by simp [basicTypeNames], rfl⟩, h.advance.advance.sound⟩
  · next hu =>
    refine .pure ⟨⟨_, ?_, rfl⟩, h.advance.sound⟩
    have hp : isTokenText s.peek.kind s.peek.lexeme = true := by
      apply h.proper
      intro he
      rw [he] at hk
      cases hk
    have hall : ∀ k ∈ Kind.basicTypes, k = .kwUnsigned ∨
        k.spelling.any (basicTypeNames.contains ·) = true := by decide
    rcases hall s.peek.kind (List.contains_iff_mem.1 hk) with hk' | hk'
    · exact absurd hk' hu
    · obtain ⟨n, hn, hmem⟩ := (Option.any_eq_true _ _).1 hk'
      rw [eq_of_isTokenText hp hn]
      exact List.contains_iff_mem.1 hmem

theorem yields_typenameWith {arg : Parse TypeExpr} {inArgs : Bool}
    (harg : ∀ s, Sound s → Yields arg s fun t s' => t.WellFormed true ∧ Sound s') (h : Sound s) :
    Yields (typenameWith arg inArgs) s fun t s' => t.WellFormed inArgs ∧ Sound s' := by
  refine .peek_bind ?_
  split
  · next hk =>
    refine (yields_basicTypename h hk).mono ?_
    intro _ s' hread
    obtain ⟨⟨n, hn, rfl⟩, hs⟩ := hread
    exact ⟨.basic hn, hs⟩
  split
  · next hk =>
    simp only [Bool.and_eq_true, beq_iff_eq] at hk
    obtain ⟨rfl, hk⟩ := hk
    refine .skip_bind ?_
    have hp : isTokenText _ s.peek.lexeme = true := h.proper (by rw [hk]; decide)
    rw [hk] at hp
    exact .pure ⟨.integer (isInteger_iff.2 hp), h.advance.sound⟩
  · refine (yields_path h).bind ?_
    intro p s1 hread
    obtain ⟨ns, name⟩ := p
    obtain ⟨hns, hn, h1⟩ := hread
    refine .check_bind fun b => ?_
    have hclose : ∀ (as : List TypeExpr) (s2 : TokenStream),
        (∀ a ∈ as, a.WellFormed true) → Sound s2 →
        Yields (pure (Typename.ofPath ns name as)) s2
          fun t s' => t.WellFormed inArgs ∧ Sound s' := by
      intro as s2 has h2
      rw [Typename.ofPath_eq hns]
      exact .pure ⟨.named hns hn has, h2⟩
    dsimp only
    split
    · refine (yields_bracketed _ harg h1).bind ?_
      intro as s2 hread
      obtain ⟨has, -, h2⟩ := hread
      exact hclose as s2 has h2
    · exact hclose [] s1 (by simp) h1

/-! ## Types -/

theorem yields_indirection (h : Sound s) : Yields indirection s fun _ s' => Sound s' := by
  refine (yields_eat_sound _ h).bind ?_
  intro b s1 h1
  split
  · exact .pure h1
  refine (yields_eat_sound _ h1).bind ?_
  intro b s2 h2
  split
  · exact .pure h2
  refine (yields_eat_sound _ h2).bind ?_
  intro b s3 h3
  split
  · exact .pure h3
  · exact .pure h3

theorem yields_unfold_typeRule (n : Nat) (inArgs : Bool) (h : Sound s) :
    Yields (unfold typeRule n inArgs) s fun t s' => t.WellFormed inArgs ∧ Sound s' := by
  induction n generalizing inArgs s with
  | zero => rintro _ _ ⟨⟩
  | succ n ih =>
    refine (yields_eat_sound .kwConst h).bind ?_
    intro isConst s1 h1
    refine (yields_typenameWith (fun s hs => ih true hs) h1).bind ?_
    intro name s2 hread
    obtain ⟨hname, h2⟩ := hread
    refine (yields_indirection h2).bind ?_
    intro sign s3 h3
    exact .pure ⟨hname isConst sign, h3⟩

/-- What is read as a type use is well formed. -/
theorem yields_typeIn (inArgs : Bool) (h : Sound s) :
    Yields (typeIn inArgs) s fun t s' => t.WellFormed inArgs ∧ Sound s' :=
  .fix (yields_unfold_typeRule _ inArgs h)

theorem yields_typename (h : Sound s) :
    Yields typename s fun t s' => t.WellFormed false ∧ Sound s' :=
  yields_typenameWith (fun _ hs => yields_typeIn true hs) h

end Parse

/-- A text is a type use exactly if nothing is left behind the type use in front of it. -/
theorem TypeExpr.parse_eq_ok {source : String} {t : TypeExpr} :
    parse source = .ok t ↔ (Lexed.ofSource source).errors = [] ∧
      ∃ s', Parse.typeUse (.ofLexed (Lexed.ofSource source)) = .ok t s' ∧ s'.peek.kind = .eof := by
  have hend : ∀ s : TokenStream, (∃ s', Parse.expectEof s = .ok () s') ↔ s.peek.kind = .eof := by
    intro s
    unfold Parse.expectEof
    dsimp only
    split
    · next hk => simp [hk]
    · next hk => simp [hk]
  rw [parse, parseWith_eq_ok]
  refine and_congr_right fun _ => ⟨?_, ?_⟩
  · rintro ⟨s', hrun⟩
    obtain ⟨a, s1, ha, hrun⟩ := Parse.bind_eq_ok.1 hrun
    obtain ⟨u, s2, hu, hrun⟩ := Parse.bind_eq_ok.1 hrun
    cases hrun
    exact ⟨s1, ha, (hend s1).1 ⟨_, hu⟩⟩
  · rintro ⟨s1, ha, hk⟩
    obtain ⟨s2, hu⟩ := (hend s1).2 hk
    exact ⟨s2, Parse.bind_eq_ok.2 ⟨t, s1, ha, Parse.bind_eq_ok.2 ⟨(), s2, hu, rfl⟩⟩⟩

end TemplateIdl
