import TemplateIdl.Proofs.Decl.Text

/-!
# Legible declarations — the text of a declaration is read as its words

* `Phrase` and `Apart`, words in front of others and words behind others;
* `Member.phrase`, `ClassDecl.phrase` and `Declaration.phrase`, members, classes and all
  declarations;
* `Declaration.includePaths` and `Interface.legible`, whole files, where no included path has a
  closing angle bracket.
-/

namespace TemplateIdl

/-! ## Phrases -/

theorem Legible.lead {ws vs : List Token} {tail : List Char} (h : Legible (ws ++ vs) tail)
    (hf : Flush ws) {g : String} (hg : IsGap g) : Legible (lead g ws ++ vs) tail := by
  obtain ⟨w, us, rfl, hgap⟩ := hf
  exact h.behind hgap hg.blank

/-- The words are legible in front of whatever begins with a break. -/
def Phrase (ws : List Token) : Prop :=
  ∀ (vs : List Token) (tail : List Char), Stops vs tail → Legible vs tail → Legible (ws ++ vs) tail

/-- The words begin with a break if what stands behind them does. -/
def Apart (ws : List Token) : Prop :=
  ∀ (vs : List Token) (tail : List Char), Stops vs tail → Stops (ws ++ vs) tail

theorem Phrase.nil : Phrase [] := fun _ _ _ h => h

theorem Apart.nil : Apart [] := fun _ _ h => h

theorem Phrase.append {ws us : List Token} (h : Phrase ws) (hus : Phrase us) (ha : Apart us) :
    Phrase (ws ++ us) := by
  intro vs tail hs hl
  rw [List.append_assoc]
  exact h _ _ (ha _ _ hs) (hus _ _ hs hl)

theorem Apart.append {ws us : List Token} (h : Apart ws) (hus : Apart us) : Apart (ws ++ us) := by
  intro vs tail hs
  rw [List.append_assoc]
  exact h _ _ (hus _ _ hs)

theorem Phrase.cons {w : Token} {ws : List Token} (hw : w.Proper) (hb : IsGap w.gap)
    (h : Phrase ws) (ha : Apart ws) : Phrase (w :: ws) := by
  intro vs tail hs hl
  exact (h _ _ hs hl).cons_of_stops hw hb.blank (ha _ _ hs)

/-- A word that nothing is glued to. -/
theorem Phrase.opening {w : Token} {ws : List Token} (hw : w.Proper) (hb : IsGap w.gap)
    (hg : ∀ d, Bite.glued w.lexeme.toList d = false) (h : Phrase ws) : Phrase (w :: ws) := by
  intro vs tail hs hl
  exact (h _ _ hs hl).cons hw hb.blank fun d _ => hg d

theorem Phrase.sign {k : Kind} (hk : k.spelling.isSome = true) : Phrase [.sign k] :=
  .cons (Token.sign_proper hk) isGap_empty .nil .nil

theorem Phrase.ident {n : String} (hn : isIdentifier n = true) : Phrase [.ident n] :=
  .cons (Token.ident_proper hn) isGap_empty .nil .nil

/-- A sign that is a break. -/
theorem Apart.sign {k : Kind} {c : Char} {l : List Char}
    (hl : (Token.sign k).lexeme.toList = c :: l) (hc : Bite.isBreak c = true) (ws : List Token) :
    Apart (.sign k :: ws) := by
  intro vs tail _
  exact .lexeme rfl hl hc _ _

theorem Phrase.lead {ws : List Token} (h : Phrase ws) (hf : Flush ws) {g : String}
    (hg : IsGap g) : Phrase (lead g ws) :=
  fun vs tail hs hl => (h vs tail hs hl).lead hf hg

theorem Apart.lead {ws : List Token} (hf : Flush ws) {g : String} (hg : IsGap g) (hne : g ≠ "") :
    Apart (lead g ws) := by
  intro vs tail _
  exact stops_lead hf.ne_nil hg hne _ _

theorem Apart.behind {w : Token} {g : String} (hg : IsGap g) (hne : g ≠ "") (ws : List Token) :
    Apart (w.behind g :: ws) := by
  intro vs tail _
  have hne' : w :: ws ≠ [] := by simp
  exact stops_lead hne' hg hne _ _

/-- Words behind a space. -/
theorem Phrase.space {ws us : List Token} (h : Phrase ws) (hus : Phrase us) (hf : Flush us) :
    Phrase (ws ++ TemplateIdl.lead " " us) :=
  h.append (hus.lead hf isGap_space) (.lead hf isGap_space (by decide))

/-- Nothing is glued to a bracket. -/
theorem glued_bracket {k : Kind} (hk : k = .leftParen ∨ k = .leftBrace ∨ k = .rightBrace) (d : Char) :
    Bite.glued (Token.sign k).lexeme.toList d = false := by
  have hglued : ∀ c : Char, Bite.followers [c] = [] → c ≠ '/' ∧ c ≠ '.' →
      Bite.extendsSymbol [c] d = false := by
    intro c hf hc
    simp [Bite.extendsSymbol, hf, hc]
  rcases hk with rfl | rfl | rfl
  · exact hglued '(' (by decide) (by decide)
  · exact hglued '\x7b' (by decide) (by decide)
  · exact hglued '\x7d' (by decide) (by decide)

theorem glued_of_isWordStart {c d : Char} {l : List Char} (hc : Bite.isWordStart c = true)
    (hd : Bite.isWordChar d = false) : Bite.glued (c :: l) d = false := by
  simp [Bite.glued, hc, hd]

/-- Words with commas between them. -/
theorem Phrase.join {wss : List (List Token)} (h : ∀ ws ∈ wss, Phrase ws ∧ Flush ws) :
    Phrase (joinWords wss) := by
  induction wss with
  | nil => exact .nil
  | cons ws wss ih =>
    cases wss with
    | nil => exact (h ws (by simp)).1
    | cons us rest =>
      have hrest : ∀ vs ∈ us :: rest, Phrase vs ∧ Flush vs :=
        fun vs hv => h vs (List.mem_cons_of_mem ws hv)
      have hflush := flush_joinWords (fun vs hv => (hrest vs hv).2) (by simp)
      have hcomma : Phrase (Token.sign .comma :: TemplateIdl.lead " " (joinWords (us :: rest))) :=
        Phrase.space (.sign rfl) (ih hrest) hflush
      exact (h ws (by simp)).1.append hcomma (.sign (c := ',') (l := []) rfl (by decide) _)

/-- Words with commas between them behind a bracket. -/
theorem Phrase.enclosed {α : Type} {f : α → List Token} {xs : List α} {k : Kind}
    (hk : k = .leftParen ∨ k = .leftBrace) {ends : List Token} (hends : Phrase ends)
    (ha : Apart ends) (h : ∀ x ∈ xs, Phrase (f x) ∧ Flush (f x)) :
    Phrase (.sign k :: (joinWords (xs.map f) ++ ends)) := by
  have hproper : (Token.sign k).Proper := Token.sign_proper (by rcases hk with rfl | rfl <;> rfl)
  refine .opening hproper isGap_empty (glued_bracket (by tauto)) ((Phrase.join ?_).append hends ha)
  intro ws hws
  obtain ⟨x, hx, rfl⟩ := List.mem_map.1 hws
  exact h x hx

/-- Words that stand on lines of their own. -/
theorem Phrase.lines {α : Type} {f : α → List Token} {xs : List α} {g : String} (hg : IsGap g)
    (hne : g ≠ "") (h : ∀ x ∈ xs, Phrase (f x) ∧ Flush (f x)) :
    Phrase (xs.flatMap fun x => TemplateIdl.lead g (f x)) ∧
      Apart (xs.flatMap fun x => TemplateIdl.lead g (f x)) := by
  induction xs with
  | nil => exact ⟨.nil, .nil⟩
  | cons x xs ih =>
    obtain ⟨hphrase, hflush⟩ := h x (by simp)
    obtain ⟨hrest, hapart⟩ := ih fun y hy => h y (List.mem_cons_of_mem x hy)
    have hx : Apart (TemplateIdl.lead g (f x)) := .lead hflush hg hne
    rw [List.flatMap_cons]
    exact ⟨(hphrase.lead hflush hg).append hrest hapart, hx.append hapart⟩

theorem Phrase.flag {ws : List Token} (h : Phrase ws) {k : Kind} (hk : k.spelling.isSome = true)
    (hf : Flush ws) (flag : Bool) : Phrase (flagWords k flag ws) := by
  cases flag with
  | false => exact h
  | true => exact Phrase.space (.sign hk) h hf

/-! ## What declarations share -/

/-- A type use. -/
theorem TypeExpr.phrase {t : TypeExpr} (h : t.WellFormed false) : Phrase t.words := by
  intro vs tail hs hl
  have hfollows : Follows 0 vs tail := hs.mono fun d hd => .inl hd
  have := TypeExpr.legible h hfollows hl isGap_empty
  rwa [t.flush_words.lead_empty] at this

theorem Typename.phrase {t : Typename} (h : t.WellFormed false) : Phrase t.words := by
  rw [t.words_eq]
  exact TypeExpr.phrase (h false none)

/-- A default in front of the end of what it belongs to. -/
theorem phrase_optionWords {d? : Option String} (h : ∀ d ∈ d?, IsDefault d) :
    Phrase (optionWords d?) ∧ Apart (optionWords d?) := by
  cases d? with
  | none => exact ⟨.nil, .nil⟩
  | some d =>
    have hd := h d rfl
    have hlexes : Lexes (Token.chars (defaultWords d)) (defaultWords d) := by
      rw [hd.chars]
      exact (lexes_iff_ofSource d _).2 ⟨hd.clean, rfl⟩
    have hrun : Phrase (defaultWords d) := fun _ _ hs hl => hl.run hlexes hs
    have hwords : Phrase (Token.sign .equal :: lead " " (defaultWords d)) :=
      Phrase.space (.sign rfl) hrun hd.flush
    exact ⟨hwords.lead (flush_cons rfl _) isGap_space, .behind isGap_space (by decide) _⟩

theorem Argument.phrase {a : Argument} (h : a.WellFormed) : Phrase a.words := by
  obtain ⟨hdefault, hapart⟩ := phrase_optionWords h.isDefault
  have hname : Phrase (Token.ident a.name :: optionWords a.default?) :=
    (Phrase.ident h.name).append hdefault hapart
  exact (TypeExpr.phrase h.type).space hname (flush_cons rfl _)

theorem phrase_argumentsWords {args : List Argument} (h : ∀ a ∈ args, a.WellFormed) :
    Phrase (argumentsWords args) :=
  .enclosed (.inl rfl) (.sign rfl) (.sign (c := ')') (l := []) rfl (by decide) _)
    fun a ha => ⟨Argument.phrase (h a ha), a.flush_words⟩

theorem apart_argumentsWords (args : List Argument) : Apart (argumentsWords args) :=
  .sign (c := '(') (l := []) rfl (by decide) _

/-- A template parameter in front of another one or of the closing bracket. -/
theorem TemplateParam.legible {p : TemplateParam} (h : p.WellFormed) {ws : List Token}
    {tail : List Char} (hs : Starts (fun d => Bite.isWordChar d = false) ws tail)
    (hl : Legible ws tail) : Legible (p.words ++ ws) tail := by
  obtain ⟨c, l, hc, hw⟩ := head_of_isIdentifier h.name
  have hname : (Token.ident p.name).Proper := Token.ident_proper h.name
  -- a name can be continued by any word character, a closing brace by nothing
  by_cases he : p.choices = []
  · rw [words, if_pos (by simpa using he)]
    refine hl.cons hname isGap_empty.blank (hs.mono fun d hd => ?_)
    show Bite.glued p.name.toList d = false
    rw [hc]
    exact glued_of_isWordStart hw hd
  · have hbrace : (Token.sign .rightBrace).Proper := Token.sign_proper rfl
    have hclose : Legible (.sign .rightBrace :: ws) tail :=
      hl.cons hbrace isGap_empty.blank fun d _ => glued_bracket (by simp) d
    have hstop : Stops (.sign .rightBrace :: ws) tail :=
      .lexeme (c := '\x7d') (l := []) rfl rfl (by decide) _ _
    have hchoices : Phrase (.sign .leftBrace :: (joinWords (p.choices.map TypeExpr.words) ++ [])) :=
      .enclosed (.inr rfl) .nil .nil fun t ht => ⟨TypeExpr.phrase (h.choices t ht), t.flush_words⟩
    have hequal := Phrase.space (.sign (k := .equal) rfl) hchoices (flush_cons rfl _)
    have hparam := Phrase.space (.ident h.name) hequal (flush_cons rfl _)
    have := hparam _ _ hstop hclose
    rw [words, if_neg (by simpa using he)]
    simpa using this

/-- A template header, of which the closing bracket may follow those of a type use. -/
theorem Template.phrase {t : Template} (h : t.WellFormed) : Phrase t.words := by
  intro vs tail hs hl
  have hcloser : Legible (closer "" :: vs) tail := by
    refine hl.closers 1 (hs.mono fun d hd => ?_)
    constructor <;> (rintro rfl; revert hd; decide)
  have hne : t.params.map TemplateParam.words ≠ [] := by simpa using h.ne_nil
  have hflush : ∀ ws ∈ t.params.map TemplateParam.words, Flush ws := by
    intro ws hws
    obtain ⟨p, -, rfl⟩ := List.mem_map.1 hws
    exact p.flush_words
  have hparams : Legible (lead "" (joinWords (t.params.map TemplateParam.words)) ++
      closer "" :: vs) tail := by
    refine Legible.join (Q := fun vs =>
      Starts (fun d => Bite.isWordChar d = false) vs tail ∧ Legible vs tail) ?_ ?_ ?_ isGap_empty hne
    · intro ws hws
      obtain ⟨p, hp, rfl⟩ := List.mem_map.1 hws
      refine ⟨p.flush_words.ne_nil, ?_⟩
      intro g us hg hus
      exact (TemplateParam.legible (h.params p hp) hus.1 hus.2).lead p.flush_words hg
    · intro us hus hstop
      exact ⟨.lexeme (c := ',') (l := []) rfl rfl (by decide) _ _,
        hus.cons_of_stops (Token.sign_proper rfl) isGap_empty.blank hstop⟩
    · exact ⟨.lexeme (c := '>') (l := []) rfl rfl (by decide) _ _, hcloser⟩
  rw [(flush_joinWords hflush hne).lead_empty] at hparams
  -- behind the opening bracket stands a name, which does not continue it
  have hstart : Starts (fun d => Bite.isWordChar d = true)
      (joinWords (t.params.map TemplateParam.words) ++ closer "" :: vs) tail := by
    obtain ⟨p, ps, hps⟩ := List.exists_cons_of_ne_nil h.ne_nil
    obtain ⟨c, l, hc, hw⟩ := head_of_isIdentifier (h.params p (by simp [hps])).name
    obtain ⟨ws, hws⟩ : ∃ ws, joinWords (t.params.map TemplateParam.words) = .ident p.name :: ws := by
      rw [hps, List.map_cons]
      cases ps with
      | nil => exact ⟨_, rfl⟩
      | cons q qs => exact ⟨_, rfl⟩
    rw [hws]
    exact .lexeme (w := .ident p.name) rfl hc (Bite.isWordChar_of_isWordStart hw) _ _
  have hless : Legible (.sign .less ::
      (joinWords (t.params.map TemplateParam.words) ++ closer "" :: vs)) tail := by
    refine hparams.cons (Token.sign_proper rfl) isGap_empty.blank (hstart.mono fun d hd => ?_)
    exact glued_sign_of_isWordChar (c := '<') (l := []) hd (by decide)
  have htemplate := hless.cons (w := .sign .kwTemplate) (Token.sign_proper rfl) isGap_empty.blank
    (.lexeme (c := '<') (l := []) rfl rfl (by decide) _ _)
  simpa [words] using htemplate

theorem Phrase.header {ws : List Token} {template : Option Template}
    (ht : ∀ t ∈ template, t.WellFormed) (h : Phrase ws) (hf : Flush ws) :
    Phrase (headerWords template ws) := by
  cases template with
  | none => exact h
  | some t => exact (Template.phrase (ht t rfl)).space h hf

theorem ReturnType.phrase {r : ReturnType} (h : r.WellFormed) : Phrase r.words :=
  TypeExpr.phrase h.written

/-- The semicolon at the end of a declaration. -/
theorem phrase_semicolon : Phrase [.sign .semicolon] ∧ Apart [.sign .semicolon] :=
  ⟨.sign rfl, .sign (c := ';') (l := []) rfl (by decide) _⟩

theorem Phrase.semicolon {ws : List Token} (h : Phrase ws) : Phrase (ws ++ [.sign .semicolon]) :=
  h.append phrase_semicolon.1 phrase_semicolon.2

theorem phrase_methodEnd (isConst : Bool) :
    Phrase (methodEnd isConst) ∧ Apart (methodEnd isConst) := by
  cases isConst with
  | false => exact phrase_semicolon
  | true =>
    have hconst : Phrase [.sign .kwConst, .sign .semicolon] :=
      (Phrase.sign rfl).semicolon
    exact ⟨hconst.lead (flush_cons rfl _) isGap_space, .behind isGap_space (by decide) _⟩

/-- A result with the name of a callable, its arguments and its end. -/
theorem phrase_callable {r : ReturnType} {name : String} {args : List Argument} {ends : List Token}
    (hr : r.WellFormed) (hn : isIdentifier name = true) (ha : ∀ a ∈ args, a.WellFormed)
    (hends : Phrase ends ∧ Apart ends) : Phrase (r.words ++ callableWords name args ends) := by
  have hargs : Phrase (argumentsWords args ++ ends) :=
    (phrase_argumentsWords ha).append hends.1 hends.2
  have hname : Phrase (Token.ident name :: (argumentsWords args ++ ends)) :=
    (Phrase.ident hn).append hargs ((apart_argumentsWords args).append hends.2)
  exact (ReturnType.phrase hr).space hname (flush_cons rfl _)

/-- A name with arguments and a semicolon. -/
theorem phrase_call {name : String} {args : List Argument} (hn : isIdentifier name = true)
    (ha : ∀ a ∈ args, a.WellFormed) :
    Phrase (.ident name :: (argumentsWords args ++ [.sign .semicolon])) := by
  have hargs := (phrase_argumentsWords ha).semicolon
  exact (Phrase.ident hn).append hargs ((apart_argumentsWords args).append phrase_semicolon.2)

/-! ## Members -/

/-- The sign of an operator behind its keyword. -/
theorem phrase_operator (o : OperatorSymbol) {ws : List Token} (h : Phrase ws) (ha : Apart ws) :
    Phrase (.sign .kwOperator :: (o.kinds.map Token.sign ++ ws)) := by
  have hsymbol : Phrase (o.kinds.map Token.sign ++ ws) := by
    rcases o.kinds_cases with ⟨k, hk, -, hspelled⟩ | rfl | rfl
    · rw [hk]
      exact (Phrase.sign hspelled).append h ha
    · have hclose := (Phrase.sign (k := .rightParen) rfl).append h ha
      exact (Phrase.sign (k := .leftParen) rfl).append hclose
        (.sign (c := ')') (l := []) rfl (by decide) _)
    · have hclose := (Phrase.sign (k := .rightBracket) rfl).append h ha
      exact (Phrase.sign (k := .leftBracket) rfl).append hclose
        (.sign (c := ']') (l := []) rfl (by decide) _)
  -- no sign begins like a word, so the keyword ends in front of it
  have hstart : ∀ vs tail, Starts (fun d => Bite.isWordChar d = false)
      (o.kinds.map Token.sign ++ ws ++ vs) tail := by
    obtain ⟨k, ks, c, l, hks, hl, hc⟩ : ∃ k ks c l, o.kinds = k :: ks ∧
        (Token.sign k).lexeme.toList = c :: l ∧ Bite.isWordChar c = false := by
      cases o <;> exact ⟨_, _, _, _, rfl, rfl, by decide⟩
    intro vs tail
    rw [hks]
    exact .lexeme rfl hl hc _ _
  intro vs tail hs hl
  refine (hsymbol vs tail hs hl).cons (Token.sign_proper rfl) isGap_empty.blank ?_
  refine (hstart vs tail).mono fun d hd => ?_
  exact glued_of_isWordStart (c := 'o') (l := "perator".toList) (by decide) hd

theorem EnumDecl.phrase {ns : List String} {d : EnumDecl} (h : d.WellFormed ns) :
    Phrase d.words := by
  have hclose : Phrase [.sign .rightBrace, .sign .semicolon] :=
    (Phrase.sign rfl).semicolon
  have hbody : Phrase (.sign .leftBrace :: (joinWords (d.enumerators.map fun n => [Token.ident n]) ++
      [.sign .rightBrace, .sign .semicolon])) :=
    .enclosed (.inr rfl) hclose (.sign (c := '\x7d') (l := []) rfl (by decide) _)
      fun n hn => ⟨.ident (h.enumerators n hn), flush_cons rfl _⟩
  have hname := Phrase.space (.ident h.name) hbody (flush_cons rfl _)
  exact Phrase.space (.sign (k := .kwEnum) rfl) (hname.flag rfl (flush_cons rfl _) d.isScoped)
    (flush_flagWords (flush_cons rfl _) _ _)

theorem VariableDecl.phrase {d : VariableDecl} (htype : d.type.WellFormed false)
    (hn : isIdentifier d.name = true) (hd : WellFormedDefault d.default?)
    (ht : ∀ t ∈ d.template, t.WellFormed) : Phrase d.words := by
  obtain ⟨hdefault, hapart⟩ := phrase_optionWords hd.isDefault
  have hends := hdefault.semicolon
  have hname := (Phrase.ident hn).append hends (hapart.append phrase_semicolon.2)
  have htyped := (TypeExpr.phrase htype).space hname (flush_cons rfl _)
  exact htyped.header ht (d.type.flush_words.append _)

/-- The words of a member. -/
theorem Member.phrase {h : ClassHead} {m : Member} (hm : m.WellFormed h) : Phrase m.words := by
  cases hm with
  | ctor hn hs ha ht => exact (phrase_call hn ha.each).header ht (flush_cons rfl _)
  | method hn hr ha ht =>
    exact (phrase_callable hr hn ha.each (phrase_methodEnd _)).header ht
      ((ReturnType.flush_words _).append _)
  | static hn hr ha ht =>
    have hcallable := phrase_callable hr hn ha.each phrase_semicolon
    have hstatic := Phrase.space (.sign (k := .kwStatic) rfl) hcallable
      ((ReturnType.flush_words _).append _)
    exact hstatic.header ht (flush_cons rfl _)
  | special hn hs ha => exact phrase_call hn ha.each
  | @operator symbol result args isConst span hr ha =>
    obtain ⟨hends, hapart⟩ := phrase_methodEnd isConst
    have hargs := (phrase_argumentsWords ha.each).append hends hapart
    have hsymbol := phrase_operator symbol hargs ((apart_argumentsWords args).append hapart)
    exact (ReturnType.phrase hr).space hsymbol (flush_cons rfl _)
  | property ht hn hd => exact VariableDecl.phrase ht hn hd (by simp)
  | enumeration hd => exact EnumDecl.phrase hd

/-! ## Classes -/

/-- A class or its forward declaration. -/
theorem phrase_classWords {name : List Token} {parent : Option TypeExpr} {ends : List Token}
    (hn : Phrase name) (hf : Flush name) (hp : ∀ t ∈ parent, t.WellFormed false)
    (hends : Phrase ends ∧ Apart ends) (isVirtual : Bool) :
    Phrase (classWords isVirtual name parent ends) := by
  have hparent : Phrase (parentWords parent ++ ends) ∧ Apart (parentWords parent ++ ends) := by
    cases parent with
    | none => exact hends
    | some t =>
      have htype := Phrase.space (.sign (k := .colon) rfl) (TypeExpr.phrase (hp t rfl)) t.flush_words
      have hapart : Apart (parentWords (some t)) := .behind isGap_space (by decide) _
      exact ⟨(htype.lead (flush_cons rfl _) isGap_space).append hends.1 hends.2,
        hapart.append hends.2⟩
  have hname : Phrase (lead " " (name ++ (parentWords parent ++ ends))) :=
    (hn.append hparent.1 hparent.2).lead (hf.append _) isGap_space
  have hclass := Phrase.space (.sign (k := .kwClass) rfl) (hn.append hparent.1 hparent.2)
    (hf.append _)
  rw [lead_append hf.ne_nil] at hclass
  exact hclass.flag rfl (flush_cons rfl _) isVirtual

theorem isGap_line : IsGap "\n" := by
  have hbreak : isBlank '\n' = true ∧ Bite.isBreak '\n' = true := by decide
  simp [IsGap, hbreak]

theorem isGap_indent : IsGap "\n  " := by
  have hline : isBlank '\n' = true ∧ Bite.isBreak '\n' = true := by decide
  have hspace : isBlank ' ' = true ∧ Bite.isBreak ' ' = true := by decide
  simp [IsGap, hline, hspace]

theorem ClassDecl.phrase {ns : List String} {c : ClassDecl} (hc : c.WellFormed ns) :
    Phrase c.words := by
  obtain ⟨h, ms, span, hh, hms, rfl⟩ := hc
  have hmembers : ∀ m ∈ (h.close ms span).members, Phrase m.words ∧ Flush m.words := by
    intro m hm
    have hwf := hms m (h.members_close ms span hm)
    exact ⟨Member.phrase hwf, Member.flush_words hwf⟩
  obtain ⟨hlines, hapart⟩ := Phrase.lines isGap_indent (by decide) hmembers
  have hend : Phrase [.sign .rightBrace, .sign .semicolon] :=
    (Phrase.sign rfl).semicolon
  have hclose : Phrase [(Token.sign .rightBrace).behind "\n", .sign .semicolon] :=
    hend.lead (flush_cons rfl _) isGap_line
  have hcloseApart : Apart [(Token.sign .rightBrace).behind "\n", .sign .semicolon] :=
    .behind isGap_line (by decide) _
  have hbody := (Phrase.sign (k := .leftBrace) rfl).append (hlines.append hclose hcloseApart)
    (hapart.append hcloseApart)
  have hname : Phrase (nameWords h.name) := by
    rw [nameWords_eq]
    exact Typename.phrase hh.name.typename
  refine Phrase.header hh.template ?_ (flush_classWords _ _ _ _)
  exact phrase_classWords hname (flush_nameWords h.name) hh.parent
    ⟨hbody.lead (flush_cons rfl _) isGap_space, .behind isGap_space (by decide) _⟩ h.isVirtual

/-! ## Declarations -/

namespace Declaration

mutual

/-- The paths of all files that are included in a declaration. -/
def includePaths : Declaration → List String
  | inclusion d => [d.path]
  | space _ content _ => contentIncludePaths content
  | _ => []

/-- The paths of all files that are included in several declarations. -/
def contentIncludePaths : List Declaration → List String
  | [] => []
  | d :: ds => includePaths d ++ contentIncludePaths ds

end

theorem contentIncludePaths_eq_flatMap (ds : List Declaration) :
    contentIncludePaths ds = ds.flatMap includePaths := by
  induction ds with
  | nil => rfl
  | cons d ds ih => rw [contentIncludePaths, ih, List.flatMap_cons]

theorem phrase_contentWords {ds : List Declaration} (h : ∀ d ∈ ds, Phrase d.words) :
    Phrase (contentWords ds) ∧ Apart (contentWords ds) := by
  rw [contentWords_eq_flatMap]
  exact Phrase.lines isGap_line (by decide) fun d hd => ⟨h d hd, d.flush_words⟩

/-- The words of a declaration. An included path with a closing bracket would end its directive. -/
theorem phrase {ns : List String} {d : Declaration} (h : d.WellFormed ns)
    (hpaths : ∀ p ∈ d.includePaths, '>' ∉ p.toList) : Phrase d.words := by
  induction h with
  | @inclusion ns d hp =>
    have hclose : '>' ∉ d.path.toList := hpaths d.path (by simp [includePaths])
    exact .cons (Token.word_proper (isTokenText_inclusion hp hclose)) isGap_empty .nil .nil
  | @space ns name content span hn hc ih =>
    have hcontent : ∀ d ∈ content, Phrase d.words := by
      intro d hd
      refine ih d hd fun p hp => hpaths p ?_
      rw [includePaths, contentIncludePaths_eq_flatMap]
      exact List.mem_flatMap.2 ⟨d, hd, hp⟩
    obtain ⟨hlines, hapart⟩ := phrase_contentWords hcontent
    have hclose : Phrase [(Token.sign .rightBrace).behind "\n"] :=
      (Phrase.sign (k := .rightBrace) rfl).lead (flush_cons rfl _) isGap_line
    have hcloseApart : Apart [(Token.sign .rightBrace).behind "\n"] :=
      .behind isGap_line (by decide) _
    have hbody := (Phrase.sign (k := .leftBrace) rfl).append (hlines.append hclose hcloseApart)
      (hapart.append hcloseApart)
    have hname := (Phrase.ident hn).space hbody (flush_cons rfl _)
    rw [words]
    exact Phrase.space (.sign (k := .kwNamespace) rfl) hname (flush_cons rfl _)
  | cls hd => exact ClassDecl.phrase hd
  | forward hn hp ht =>
    refine Phrase.header ht ?_ (flush_classWords _ _ _ _)
    exact phrase_classWords (Typename.phrase hn) (Typename.flush_words _) hp phrase_semicolon _
  | enumeration hd => exact EnumDecl.phrase hd
  | var htype hn hd ht => exact VariableDecl.phrase htype hn hd ht
  | function hn hr ha ht =>
    exact (phrase_callable hr hn ha.each phrase_semicolon).header ht
      ((ReturnType.flush_words _).append _)
  | @typedef ns type newName span htype hargs hplain hn =>
    have htarget : Phrase type.typename.words := by
      obtain ⟨ms, n, as, c, i, b⟩ := type
      obtain ⟨rfl, rfl⟩ := hplain
      have := TypeExpr.phrase htype
      rwa [TypeExpr.words, TypeExpr.wordsList_eq_map, flagWords_false, signWords,
        List.append_nil] at this
    have hname := (Phrase.ident hn).semicolon
    have hnamed := Phrase.space (.sign (k := .kwTypedef) rfl)
      (htarget.space hname (flush_cons rfl _)) ((Typename.flush_words _).append _)
    rw [lead_append (Typename.flush_words _).ne_nil] at hnamed
    exact hnamed

end Declaration

/-- The paths of all files that a file includes. -/
def Interface.includePaths (m : Interface) : List String :=
  Declaration.contentIncludePaths m.content

theorem legible_lineFeed : Legible [] ['\n'] :=
  ⟨[], .done (by decide), .nil⟩

/-- The text of a file is read as its words. -/
theorem Interface.legible {m : Interface} (h : m.WellFormed)
    (hpaths : ∀ p ∈ m.includePaths, '>' ∉ p.toList) : Legible m.words m.tail := by
  obtain ⟨content⟩ := m
  have hcontent : ∀ d ∈ content, Phrase d.words := by
    intro d hd
    refine Declaration.phrase (h d hd) fun p hp => hpaths p ?_
    rw [includePaths, Declaration.contentIncludePaths_eq_flatMap]
    exact List.mem_flatMap.2 ⟨d, hd, hp⟩
  cases content with
  | nil => exact .nil
  | cons d ds =>
    have hbreak : Bite.isBreak '\n' = true := by decide
    have hstop : Stops [] ['\n'] := by simp [Stops, Starts, hbreak]
    have hrest := Declaration.phrase_contentWords fun e he => hcontent e (List.mem_cons_of_mem d he)
    have hall := (hcontent d (by simp)).append hrest.1 hrest.2
    rw [words_cons, ← List.append_nil (d.words ++ _)]
    exact hall [] _ hstop legible_lineFeed

end TemplateIdl
