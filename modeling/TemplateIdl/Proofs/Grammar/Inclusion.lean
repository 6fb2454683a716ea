import Mathlib.Data.List.TakeWhile
import TemplateIdl.Grammar.Declaration
import TemplateIdl.Proofs.Token.Proper

/-!
# Inclusion — the paths of include directives

* `trim_trim` and `trim_eq_nil_iff`, a text without the blanks at its ends;
* `IsIncludePath`, the paths that directives name (`isIncludePath_of_includePath?`);
* `isTokenText_inclusion`, a directive that is printed is one token, and
  `includePath?_inclusion`, which names the same path.
-/

namespace TemplateIdl

/-! ## Blanks at the ends -/

theorem trimStart_eq_of_head {c : Char} (h : isBlank c = false) (cs : List Char) :
    trimStart (c :: cs) = c :: cs :=
  List.dropWhile_cons_of_neg (by rw [h]; decide)

theorem trimStart_trimStart (cs : List Char) : trimStart (trimStart cs) = trimStart cs := by
  rcases h : trimStart cs with _ | ⟨c, l⟩
  · rfl
  · exact trimStart_eq_of_head (Bite.head_dropWhile cs c (by rw [← trimStart, h]; rfl)) l

theorem trimEnd_trimEnd (cs : List Char) : trimEnd (trimEnd cs) = trimEnd cs := by
  have h := trimStart_trimStart cs.reverse
  unfold trimStart at h
  unfold trimEnd
  rw [List.reverse_reverse, h]

theorem isPrefix_trimEnd (cs : List Char) : trimEnd cs <+: cs := by
  have h := List.reverse_prefix.2 (List.dropWhile_suffix (l := cs.reverse) isBlank)
  rwa [List.reverse_reverse] at h

/-- A text that begins with a visible character does so without the blanks behind it. -/
theorem trimStart_trimEnd {cs : List Char} (h : trimStart cs = cs) :
    trimStart (trimEnd cs) = trimEnd cs := by
  rcases he : trimEnd cs with _ | ⟨c, l⟩
  · rfl
  · obtain ⟨r, hr⟩ := he ▸ isPrefix_trimEnd cs
    refine trimStart_eq_of_head (Bite.head_dropWhile cs c ?_) l
    rw [← trimStart, h, ← hr]
    rfl

theorem trim_trim (cs : List Char) : trim (trim cs) = trim cs := by
  unfold trim
  rw [trimStart_trimEnd (trimStart_trimStart cs), trimEnd_trimEnd]

theorem trim_subset (cs : List Char) : trim cs ⊆ cs := by
  intro c hc
  have hstart : c ∈ trimStart cs := (isPrefix_trimEnd _).subset hc
  exact (List.dropWhile_suffix _).subset hstart

/-- Only of blanks nothing is left. -/
theorem trim_eq_nil_iff {cs : List Char} : trim cs = [] ↔ cs.all isBlank = true := by
  rw [trim, trimEnd, List.reverse_eq_nil_iff, List.dropWhile_eq_nil_iff, List.all_eq_true]
  constructor
  · intro h c hc
    have hsplit : cs.takeWhile isBlank ++ trimStart cs = cs := List.takeWhile_append_dropWhile
    rw [← hsplit] at hc
    rcases List.mem_append.1 hc with hc | hc
    · exact Bite.all_takeWhile cs c hc
    · exact h c (List.mem_reverse.2 hc)
  · intro h c hc
    exact h c ((List.dropWhile_suffix _).subset (List.mem_reverse.1 hc))

/-! ## Include directives -/

/-- The path of an include, without blanks at its ends. -/
structure IsIncludePath (path : String) : Prop where
  ne_nil : path.toList ≠ []
  trimmed : trim path.toList = path.toList
  line : '\n' ∉ path.toList

theorem Bite.includePath_eq {close : Char} {front cs l r : List Char} {k : Kind}
    (h : includePath close front cs = ⟨.token k, l, r⟩) :
    ∃ path, l = front ++ path ++ [close] ∧ path.all isBlank = false ∧ '\n' ∉ path ∧
      close ∉ path := by
  unfold includePath at h
  dsimp only at h
  split at h
  · split at h
    · next hc =>
      obtain ⟨rfl, hblank⟩ := hc
      cases h
      refine ⟨_, rfl, by simpa using hblank, ?_, ?_⟩
      all_goals
        intro hmem
        have hstop := all_takeWhile cs _ hmem
        simp at hstop
    · cases h
  · cases h

/-- A directive that is a token is the word with a path behind it. -/
theorem Bite.directive_eq {cs l r : List Char} {k : Kind} (h : directive cs = ⟨.token k, l, r⟩) :
    ∃ (blanks path : List Char) (opening close : Char),
      l = includeWord ++ (blanks ++ opening :: (path ++ [close])) ∧
      (∀ c ∈ blanks, isSpaceOrTab c = true) ∧ pathClose? opening = some close ∧
      path.all isBlank = false ∧ '\n' ∉ path ∧ close ∉ path := by
  unfold directive at h
  split at h
  · dsimp only at h
    split at h
    · next c after _ =>
      split at h
      · next close hclose =>
        obtain ⟨path, rfl, hpath⟩ := includePath_eq h
        refine ⟨(cs.drop includeWord.length).takeWhile isSpaceOrTab, path, c, close, ?_,
          all_takeWhile _, hclose, hpath⟩
        simp only [List.append_assoc, List.cons_append, List.nil_append]
      · cases h
    · cases h
  · cases h

/-- Only directives are tokens of their kind. -/
theorem Bite.first_directive {c : Char} {cs l r : List Char}
    (h : first c cs = ⟨.token .includeDirective, l, r⟩) :
    directive (c :: cs) = ⟨.token .includeDirective, l, r⟩ := by
  unfold first at h
  split at h
  · cases h
  split at h
  · unfold blockComment at h
    split at h <;> cases h
  split at h
  · simp only [quoted, Bite.mk.injEq] at h
    have hk := h.1
    split at hk <;> cases hk
  split at h
  · exact h
  split at h
  · rcases number_shape h with hk | hk <;> cases hk
  -- no word and no sign is of that kind
  split at h
  · simp only [word, Bite.mk.injEq, PieceKind.token.injEq] at h
    rcases hkw : keyword? (String.ofList ((c :: cs).takeWhile isWordChar)) with _ | k
    · rw [hkw] at h
      cases h.1
    · rw [hkw, Option.getD_some] at h
      have hmem := (keyword?_eq_some hkw).1
      rw [h.1] at hmem
      exact absurd hmem (by decide)
  · unfold symbol at h
    split at h
    · next s hs =>
      have hno : ∀ s ∈ Kind.symbols, s.2 ≠ .includeDirective := by decide
      simp only [Bite.mk.injEq, PieceKind.token.injEq] at h
      exact absurd h.1 (hno s (List.mem_of_find?_eq_some hs))
    · cases h

theorem not_isBlank_of_pathClose? {c close : Char} (h : Bite.pathClose? c = some close) :
    isBlank c = false ∧ (c = '<' ∧ close = '>' ∨ c = '"' ∧ close = '"') := by
  unfold Bite.pathClose? at h
  split at h
  · next hc =>
    cases h
    exact ⟨by rw [hc]; decide, .inl ⟨hc, rfl⟩⟩
  · split at h
    · next hc =>
      cases h
      exact ⟨by rw [hc]; decide, .inr ⟨hc, rfl⟩⟩
    · cases h

theorem isBlank_of_isSpaceOrTab {c : Char} (h : Bite.isSpaceOrTab c = true) : isBlank c = true := by
  rw [Bite.isSpaceOrTab, Bool.or_eq_true, beq_iff_eq, beq_iff_eq] at h
  rcases h with rfl | rfl <;> decide

theorem enclosed?_eq_some (opening close : Char) (path : List Char) :
    enclosed? opening close (opening :: (path ++ [close])) = some path := by
  rw [enclosed?, if_pos ⟨rfl, List.getLast?_concat⟩, List.dropLast_concat]

/-- The path in a directive with the blanks `blanks` behind its word. -/
theorem includePath?_eq {blanks path : List Char} {opening close : Char}
    (hblanks : ∀ c ∈ blanks, Bite.isSpaceOrTab c = true)
    (hclose : Bite.pathClose? opening = some close) :
    includePath? (Bite.includeWord ++ (blanks ++ opening :: (path ++ [close]))) =
      some (trim path) := by
  obtain ⟨hvisible, hpair⟩ := not_isBlank_of_pathClose? hclose
  have hrest : trimStart (blanks ++ opening :: (path ++ [close])) = opening :: (path ++ [close]) :=
    (Bite.takeWhile_eq_of (fun c hc => isBlank_of_isSpaceOrTab (hblanks c hc))
      (by simpa using hvisible)).2
  rw [includePath?, if_pos (List.isPrefixOf_iff_prefix.2 (List.prefix_append _ _)),
    List.drop_left, hrest]
  dsimp only
  rcases hpair with ⟨rfl, rfl⟩ | ⟨rfl, rfl⟩
  · rw [enclosed?_eq_some]
    rfl
  · rw [enclosed?_eq_some]
    rfl

/-- The path that is read from a directive. -/
theorem isIncludePath_of_includePath? {directive : String}
    (h : isTokenText .includeDirective directive = true) {path : List Char}
    (hp : includePath? directive.toList = some path) : IsIncludePath (String.ofList path) := by
  obtain ⟨c, l, hs, hf⟩ := isTokenText_iff.1 h
  obtain ⟨blanks, inner, opening, close, hl, hblanks, hclose, hvisible, hline, -⟩ :=
    Bite.directive_eq (Bite.first_directive hf)
  rw [hs, hl, includePath?_eq hblanks hclose] at hp
  cases hp
  refine ⟨?_, ?_, ?_⟩
  · -- the lexer takes only paths with a visible character
    rw [String.toList_ofList]
    intro he
    rw [trim_eq_nil_iff.1 he] at hvisible
    cases hvisible
  · rw [String.toList_ofList, trim_trim]
  · rw [String.toList_ofList]
    exact fun hmem => hline (trim_subset inner hmem)

/-! ## Printed directives -/

theorem toList_inclusionText (path : String) :
    ("#include <" ++ path ++ ">").toList =
      Bite.includeWord ++ ([' '] ++ '<' :: (path.toList ++ ['>'])) := by
  rw [String.toList_append, String.toList_append, show "#include <".toList =
    Bite.includeWord ++ [' ', '<'] by decide, show ">".toList = ['>'] by decide]
  simp

/-- Behind one blank and an opening bracket the path is scanned. -/
theorem Bite.directive_inclusion (cs : List Char) :
    directive (includeWord ++ ([' '] ++ '<' :: cs)) =
      includePath '>' (includeWord ++ [' '] ++ ['<']) cs := by
  have hspace : ([' '] ++ '<' :: cs).takeWhile isSpaceOrTab = [' '] ∧
      ([' '] ++ '<' :: cs).dropWhile isSpaceOrTab = '<' :: cs :=
    takeWhile_eq_of (by simp [isSpaceOrTab]) (by simp [isSpaceOrTab])
  rw [directive, if_pos (List.isPrefixOf_iff_prefix.2 (List.prefix_append _ _))]
  dsimp only
  rw [List.drop_left, hspace.1, hspace.2]
  rfl

/-- A printed directive names the path that it is printed with. -/
theorem includePath?_inclusion {path : String} (h : IsIncludePath path) :
    includePath? ("#include <" ++ path ++ ">").toList = some path.toList := by
  have hblanks : ∀ c ∈ [' '], Bite.isSpaceOrTab c = true := by simp [Bite.isSpaceOrTab]
  have hclose : Bite.pathClose? '<' = some '>' := rfl
  rw [toList_inclusionText, includePath?_eq hblanks hclose, h.trimmed]

/-- A printed directive is one token, unless its path has a closing bracket. -/
theorem isTokenText_inclusion {path : String} (h : IsIncludePath path) (hclose : '>' ∉ path.toList) :
    isTokenText .includeDirective ("#include <" ++ path ++ ">") = true := by
  have hvisible : path.toList.all isBlank = false := by
    rw [← Bool.not_eq_true, ← trim_eq_nil_iff, h.trimmed]
    exact h.ne_nil
  have hpath : ∀ c ∈ path.toList, (c != '>' && c != '\n') = true := by
    intro c hc
    rw [Bool.and_eq_true, bne_iff_ne, bne_iff_ne]
    exact ⟨fun he => hclose (he ▸ hc), fun he => h.line (he ▸ hc)⟩
  obtain ⟨htake, hdrop⟩ := Bite.takeWhile_eq_of (r := ['>']) hpath (by simp)
  -- the word, one blank, and the path up to the only closing bracket
  have hdirective : Bite.directive (Bite.includeWord ++ ([' '] ++ '<' :: (path.toList ++ ['>']))) =
      ⟨.token .includeDirective,
        Bite.includeWord ++ ([' '] ++ '<' :: (path.toList ++ ['>'])), []⟩ := by
    rw [Bite.directive_inclusion, Bite.includePath, htake, hdrop]
    dsimp only
    rw [if_pos ⟨rfl, by simp [hvisible]⟩]
    simp
  rw [isTokenText_iff]
  refine ⟨'#', _, toList_inclusionText path, ?_⟩
  exact hdirective

end TemplateIdl
