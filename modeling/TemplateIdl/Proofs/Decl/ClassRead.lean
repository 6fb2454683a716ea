import TemplateIdl.Proofs.Decl.Read

/-!
# Reading classes — members and classes are read from their words

* `Parse.runs_operatorSymbol`, operators, of which a closing bracket is one;
* `Parse.runs_member`, members of any kind up to their places;
* `Parse.runs_class` and `Parse.runs_forward`, classes and forward
  declarations.
-/

namespace TemplateIdl

/-- Behind an identifier at its front a type use has no parenthesis. -/
theorem second_of_identifier {t : TypeExpr} (ht : t.WellFormed false)
    (hk : headKind t.words = .identifier) :
    ∃ w ws, t.words = w :: ws ∧ w.kind = .identifier ∧ (ws = [] ∨ headKind ws ≠ .leftParen) := by
  obtain ⟨ns, name, args, isConst, sign, isBasic⟩ := t
  rw [TypeExpr.words, TypeExpr.wordsList_eq_map] at hk ⊢
  have hpath := (flush_pathWords ns name).append (angledWords (args.map TypeExpr.words))
  cases isConst with
  | true => cases hk
  | false =>
    rw [flagWords_false, headKind_append hpath.ne_nil,
      headKind_append (flush_pathWords ns name).ne_nil] at hk
    have hn : isIdentifier name = true := by
      cases ht with
      | basic hn =>
        have hbasic := Parse.headKind_basic hn
        rw [show headKind (nameWords name) = .identifier from hk] at hbasic
        cases hbasic
      | named _ hn => exact hn
    -- behind the name stands a bracket, a sign or nothing
    have hangled : ∀ wss : List (List Token), angledWords wss ++ signWords sign = [] ∨
        headKind (angledWords wss ++ signWords sign) ≠ .leftParen := by
      intro wss
      unfold angledWords
      split
      · rcases sign with _ | _ | _ | _
        · exact .inl rfl
        · exact .inr (by simp [signWords])
        · exact .inr (by simp [signWords])
        · exact .inr (by simp [signWords])
      · exact .inr (by simp)
    cases ns with
    | nil =>
      rw [flagWords_false, pathWords, Parse.nameWords_identifier hn]
      exact ⟨_, _, rfl, rfl, hangled _⟩
    | cons n ns =>
      exact ⟨_, _, rfl, rfl, .inr (by simp)⟩

theorem callableWords_append (name : String) (args : List Argument) (ends us : List Token) :
    callableWords name args ends ++ us =
      (Token.ident name).behind " " :: (argumentsWords args ++ (ends ++ us)) := by
  rw [callableWords, List.cons_append, List.append_assoc]

namespace Parse

variable {s : TokenStream} {us : List Token} {g : String} {h : ClassHead} {start : Span}

/-! ## Callables -/

theorem runs_operatorSymbol (o : OperatorSymbol) (hus : headKind us = .leftParen)
    (hs : At s (o.kinds.map Token.sign ++ us)) :
    Runs operatorSymbol s fun o' s' => o' = o ∧ At s' us := by
  have hadvance : ∀ {k ws}, At s (.sign k :: ws) → headKind ws ≠ .greater →
      Runs advance s fun t s' => t.kind = k ∧ At s' ws := by
    intro k ws hat hws
    obtain ⟨hb, hs'⟩ := hat.peek_alone hws
    exact ⟨s.peek, s.advance, rfl, (Token.bare_eq_iff.1 hb).1, hs'⟩
  -- one token, then the two operators that a closing bracket ends
  rcases o.kinds_cases with ⟨k, hk, ho, -⟩ | rfl | rfl
  · rw [hk] at hs
    refine (hadvance hs (by simp [hus])).bind ?_
    intro t s1 h1
    dsimp only
    rw [h1.1, ho]
    exact .pure ⟨rfl, h1.2⟩
  · refine (hadvance (k := .leftParen) hs (by simp)).bind ?_
    intro t s1 h1
    dsimp only
    rw [h1.1]
    refine (runs_eat (k := .rightParen) h1.2 rfl (by decide)).seq ?_
    intro s2 h2
    exact .pure ⟨rfl, h2⟩
  · refine (hadvance (k := .leftBracket) hs (by simp)).bind ?_
    intro t s1 h1
    dsimp only
    rw [h1.1]
    refine (runs_eat (k := .rightBracket) h1.2 rfl (by decide)).seq ?_
    intro s2 h2
    exact .pure ⟨rfl, h2⟩

theorem runs_methodEnd {isConst : Bool} (hs : At s (methodEnd isConst ++ us)) :
    Runs (eat .kwConst) s fun b s' => b = isConst ∧ At s' (.sign .semicolon :: us) := by
  cases isConst with
  | true => exact runs_eat (k := .kwConst) hs rfl (by decide)
  | false => exact runs_eat_no (k := .kwConst) hs (by simp) (by decide)

theorem runs_methodRest {template : Option Template} {result : ReturnType} {name : String}
    {args : List Argument} {isConst : Bool} {span : Span} (ha : WellFormedArguments args)
    (hs : At s (argumentsWords args ++ (methodEnd isConst ++ us))) :
    Runs (methodRest h template start result name) s fun m s' => m.eraseSpans = Member.eraseSpans
      (.method ⟨name, result, args, isConst, h.selfType, template, span, none⟩) ∧ At s' us := by
  refine (runs_arguments ha hs).seq ?_
  intro s1 h1
  refine (runs_methodEnd h1).seq ?_
  intro s2 h2
  exact runs_end (fun _ => rfl) h2

theorem runs_staticRest {template : Option Template} {result : ReturnType} {name : String}
    {args : List Argument} {span : Span} (hr : result.WellFormed) (ha : WellFormedArguments args)
    (hs : At s (lead g (result.words ++ callableWords name args [.sign .semicolon]) ++ us)) :
    Runs (staticRest h template start) s fun m s' => m.eraseSpans = Member.eraseSpans
      (.static ⟨name, result, args, h.selfType, template, span, none⟩) ∧ At s' us := by
  rw [lead_append result.flush_words.ne_nil, List.append_assoc, callableWords_append] at hs
  refine (runs_returnType hr (endsType_cons (k := .identifier) rfl (by decide) _) hs).seq ?_
  intro s1 h1
  refine (runs_expectIdentifier h1 rfl).seq ?_
  intro s2 h2
  refine (runs_arguments ha h2).seq ?_
  intro s3 h3
  exact runs_end (fun _ => rfl) h3

/-! ## Members with a template header -/

/-- A name with arguments is that of a constructor or of a special method. -/
theorem runs_templatableMember_call {template : Option Template} {name : String}
    {ws : List Token} {Q : Member → TokenStream → Prop} (hws : headKind ws = .leftParen)
    (hrest : ∀ s t, t.lexeme = name → At s ws → Runs (ctorRest h template start t) s Q)
    (hs : At s ((Token.ident name).behind g :: ws)) :
    Runs (templatableMember h template start) s Q := by
  refine (runs_eat_no (k := .kwStatic) hs (by simp [Token.ident, Token.word]) (by decide)).seq ?_
  intro s1 h1
  refine (runs_peek h1 (by simp [Token.ident, Token.word])).bind ?_
  intro t s2 h2
  obtain ⟨hk, hl, -⟩ := Token.bare_eq_iff.1 h2.1
  refine (runs_checkSecond h2.2 (by simp [Token.ident, Token.word]) hws (by decide)).seq ?_
  intro s3 h3
  have hident : t.kind = .identifier := hk
  rw [if_pos (by simp [hident])]
  refine (runs_advance h3 (by simp [Token.ident, Token.word])).drop ?_
  intro _ s4 h4
  exact hrest s4 t hl h4.2

/-- Whether a parenthesis stands behind an identifier at the front of a type use: none does. -/
theorem runs_checkSecond_type {type : TypeExpr} (ht : type.WellFormed false)
    (hus : headKind us ≠ .leftParen) (hs : At s (lead g type.words ++ us)) :
    Runs (checkSecond .leftParen) s fun b s' =>
      (headKind type.words = .identifier → b = false) ∧ At s' (lead g type.words ++ us) := by
  refine ⟨_, s, rfl, ?_, hs⟩
  intro hk
  obtain ⟨w, ws, he, hw, hws⟩ := second_of_identifier ht hk
  rw [he, lead_cons, List.cons_append] at hs
  have hsecond : headKind (ws ++ us) ≠ .leftParen := by
    rcases hws with rfl | hws
    · exact hus
    · cases ws with
      | nil => exact hus
      | cons v ws => exact hws
  obtain ⟨b, _, hrun, hb, -⟩ := runs_checkSecond_no hs (by rw [Token.kind_behind, hw]; decide)
    hsecond (by decide)
  rw [checkSecond] at hrun
  cases hrun
  exact hb

theorem runs_templatableMember_method {template : Option Template} {result : ReturnType}
    {name : String} {args : List Argument} {isConst : Bool} {span : Span}
    (hr : result.WellFormed) (ha : WellFormedArguments args)
    (hs : At s (lead g (result.words ++ callableWords name args (methodEnd isConst)) ++ us)) :
    Runs (templatableMember h template start) s fun m s' => m.eraseSpans = Member.eraseSpans
      (.method ⟨name, result, args, isConst, h.selfType, template, span, none⟩) ∧ At s' us := by
  have hne := result.flush_words.ne_nil
  rw [lead_append hne, List.append_assoc, callableWords_append] at hs
  have hhead := headKind_lead_append hne g
    ((Token.ident name).behind " " :: (argumentsWords args ++ (methodEnd isConst ++ us)))
  refine (runs_eat_no (k := .kwStatic) hs ?_ (by decide)).seq ?_
  · rw [hhead]
    exact headKind_words_ne hr.written rfl
  intro s1 h1
  refine (runs_peek_kind h1 ?_).bind ?_
  · rw [hhead]
    exact headKind_words_ne hr.written rfl
  intro t s2 h2
  rw [hhead] at h2
  refine (runs_checkSecond_type hr.written (by simp [Token.ident, Token.word]) h2.2).bind ?_
  intro b s3 h3
  -- so the rule does not take the result for the name of a constructor
  have hno : ¬(decide (t.kind = .identifier) && b) = true := by
    rw [Bool.and_eq_true, decide_eq_true_eq, h2.1]
    intro hboth
    rw [h3.1 hboth.1] at hboth
    exact absurd hboth.2 (by decide)
  rw [if_neg hno]
  refine (runs_returnType hr (endsType_cons (k := .identifier) rfl (by decide) _) h3.2).seq ?_
  intro s4 h4
  refine (runs_expectIdentifier h4 rfl).seq ?_
  intro s5 h5
  exact runs_methodRest ha h5

/-! ## Members that begin with a type -/

theorem runs_typedMember_operator {symbol : OperatorSymbol} {result : ReturnType}
    {args : List Argument} {isConst : Bool} {span : Span} (hr : result.WellFormed)
    (ha : WellFormedArguments args)
    (hs : At s (lead g result.words ++ (Token.sign .kwOperator).behind " " ::
      (symbol.kinds.map Token.sign ++ (argumentsWords args ++ (methodEnd isConst ++ us))))) :
    Runs (typedMember h start) s fun m s' => m.eraseSpans = Member.eraseSpans
      (.operator ⟨symbol, result, args, isConst, h.selfType, span⟩) ∧ At s' us := by
  refine (runs_typeUse hr.written hs (endsType_cons (k := .kwOperator) rfl (by decide) _)).seq ?_
  intro s1 h1
  refine (runs_eat (k := .kwOperator) h1 rfl (by decide)).seq ?_
  intro s2 h2
  refine (runs_operatorSymbol symbol rfl h2).seq ?_
  intro s3 h3
  refine (runs_arguments ha h3).seq ?_
  intro s4 h4
  refine (runs_methodEnd h4).seq ?_
  intro s5 h5
  refine runs_end (fun _ => ?_) h5
  rw [hr.ofType_written]
  rfl

theorem runs_typedMember_method {result : ReturnType} {name : String} {args : List Argument}
    {isConst : Bool} {span : Span} (hr : result.WellFormed) (ha : WellFormedArguments args)
    (hs : At s (lead g result.words ++ (Token.ident name).behind " " ::
      (argumentsWords args ++ (methodEnd isConst ++ us)))) :
    Runs (typedMember h start) s fun m s' => m.eraseSpans = Member.eraseSpans
      (.method ⟨name, result, args, isConst, h.selfType, none, span, none⟩) ∧ At s' us := by
  refine (runs_typeUse hr.written hs (endsType_cons (k := .identifier) rfl (by decide) _)).seq ?_
  intro s1 h1
  refine (runs_eat_no (k := .kwOperator) h1 (by simp [Token.ident, Token.word]) (by decide)).seq ?_
  intro s2 h2
  refine (runs_expectIdentifier h2 rfl).seq ?_
  intro s3 h3
  refine (runs_check (k := .leftParen) h3 rfl (by decide)).seq ?_
  intro s4 h4
  rw [if_pos rfl, hr.ofType_written]
  exact runs_methodRest ha h4

theorem runs_typedMember_property {type : TypeExpr} {name : String} {d? : Option String}
    {span : Span} (ht : type.WellFormed false) (hd : WellFormedDefault d?)
    (hs : At s (lead g type.words ++ (Token.ident name).behind " " ::
      (optionWords d? ++ .sign .semicolon :: us))) :
    Runs (typedMember h start) s fun m s' => m.eraseSpans = Member.eraseSpans
      (.property ⟨type, name, d?, none, h.namespaces, some h.selfType, span, none⟩) ∧
        At s' us := by
  refine (runs_typeUse ht hs (endsType_cons (k := .identifier) rfl (by decide) _)).seq ?_
  intro s1 h1
  refine (runs_eat_no (k := .kwOperator) h1 (by simp [Token.ident, Token.word]) (by decide)).seq ?_
  intro s2 h2
  refine (runs_expectIdentifier h2 rfl).seq ?_
  intro s3 h3
  refine (runs_check_no (k := .leftParen) h3 (headKind_optionWords d?) (by decide)).seq ?_
  intro s4 h4
  exact runs_defaultEnd hd (fun _ => rfl) h4

/-! ## Members -/

theorem runs_member_typed {type : TypeExpr} {Q : Member → TokenStream → Prop}
    (ht : type.WellFormed false) (hus : headKind us ≠ .leftParen)
    (hrest : ∀ start s, At s (lead g type.words ++ us) → Runs (typedMember h start) s Q)
    (hs : At s (lead g type.words ++ us)) : Runs (member h) s Q := by
  have hhead := headKind_lead_append type.flush_words.ne_nil g us
  refine (runs_peek_kind hs ?_).bind ?_
  · rw [hhead]
    exact headKind_words_ne ht rfl
  intro t s1 h1
  rw [hhead] at h1
  have hbegins : t.kind.beginsType = true := h1.1 ▸ beginsType_words ht
  -- no type use begins with any of the other kinds
  split
  · next hk => rw [hk] at hbegins; cases hbegins
  · next hk => rw [hk] at hbegins; cases hbegins
  · next hk => rw [hk] at hbegins; cases hbegins
  · next hk => rw [hk] at hbegins; cases hbegins
  · next hk =>
    refine (runs_checkSecond_type ht hus h1.2).bind ?_
    intro b s2 h2
    rw [h2.1 (h1.1 ▸ hk)]
    exact hrest _ s2 h2.2
  · exact hrest _ s1 h1.2
  · next hk => rw [hk] at hbegins; cases hbegins
  · next hident hconst _ =>
    rw [if_pos (Kind.isBasicType_of_beginsType hbegins hconst hident)]
    exact hrest _ s1 h1.2

/-- A member with or without a template header. -/
theorem runs_member_header {template : Option Template} {ws : List Token}
    {Q : Member → TokenStream → Prop} (ht : ∀ t ∈ template, t.WellFormed)
    (hnone : template = none → ∀ s, At s (lead g ws ++ us) → Runs (member h) s Q)
    (hsome : ∀ start s, At s (lead " " ws ++ us) → Runs (templatableMember h template start) s Q)
    (hs : At s (lead g (headerWords template ws) ++ us)) : Runs (member h) s Q := by
  cases template with
  | none => exact hnone rfl s hs
  | some t =>
    rw [headerWords, lead_append t.flush_words.ne_nil, List.append_assoc] at hs
    have hhead : headKind (lead g t.words ++ (lead " " ws ++ us)) = .kwTemplate :=
      headKind_lead_append t.flush_words.ne_nil g _
    refine (runs_peek_kind hs (by rw [hhead]; decide)).bind ?_
    intro start s1 h1
    have hk : start.kind = .kwTemplate := h1.1.trans hhead
    rw [hk]
    refine (runs_templateHeader (ht t rfl) h1.2).seq ?_
    intro s2 h2
    exact hsome _ s2 h2

/-- A name with arguments in front of a semicolon, without a template header. -/
theorem runs_member_call {name : String} {ws : List Token} {Q : Member → TokenStream → Prop}
    (hws : headKind ws = .leftParen)
    (hrest : ∀ start s t, t.lexeme = name → At s ws → Runs (ctorRest h none start t) s Q)
    (hs : At s ((Token.ident name).behind g :: ws)) : Runs (member h) s Q := by
  refine (runs_peek_kind hs (by simp [Token.ident, Token.word])).bind ?_
  intro t s1 h1
  have hk : t.kind = .identifier := h1.1
  rw [hk]
  refine (runs_checkSecond h1.2 (by simp [Token.ident, Token.word]) hws (by decide)).seq ?_
  intro s2 h2
  exact runs_templatableMember_call hws (hrest _) h2

theorem runs_ctorRest {template : Option Template} {args : List Argument} {t : Token} {span : Span}
    (hn : t.lexeme = h.name) (hspecial : specialName? h.name.toList = none)
    (ha : WellFormedArguments args) (hs : At s (argumentsWords args ++ .sign .semicolon :: us)) :
    Runs (ctorRest h template start t) s fun m s' => m.eraseSpans = Member.eraseSpans
      (.ctor ⟨h.name, args, h.selfType, template, span, none⟩) ∧ At s' us := by
  rw [ctorRest, hn, hspecial]
  dsimp only
  rw [if_pos rfl]
  refine (runs_arguments ha hs).seq ?_
  intro s1 h1
  exact runs_end (fun _ => rfl) h1

theorem runs_ctorRest_special {name : String} {args : List Argument} {t : Token} {span : Span}
    (hspecial : specialName? t.lexeme.toList = some name.toList) (ha : WellFormedArguments args)
    (hs : At s (argumentsWords args ++ .sign .semicolon :: us)) :
    Runs (ctorRest h none start t) s fun m s' => m.eraseSpans = Member.eraseSpans
      (.special ⟨name, args, h.selfType, span⟩) ∧ At s' us := by
  rw [ctorRest, hspecial]
  dsimp only
  rw [if_neg (by simp)]
  refine (runs_arguments ha hs).seq ?_
  intro s1 h1
  rw [String.ofList_toList]
  exact runs_end (fun _ => rfl) h1

/-- A member of any kind, up to its place. -/
theorem runs_member {m : Member} (hm : m.WellFormed h) (hs : At s (lead g m.words ++ us)) :
    Runs (member h) s fun m' s' => m'.eraseSpans = m.eraseSpans ∧ At s' us := by
  cases hm with
  | @ctor args template span hn hspecial ha ht =>
    have hcall : ∀ g, lead g (.ident h.name :: (argumentsWords args ++ [.sign .semicolon])) ++ us =
        (Token.ident h.name).behind g :: (argumentsWords args ++ .sign .semicolon :: us) := by
      simp
    refine runs_member_header ht ?_ ?_ hs
    · intro hnone s hs
      rw [hcall] at hs
      refine runs_member_call rfl ?_ hs
      intro start s t ht hs
      rw [hnone]
      exact runs_ctorRest ht hspecial ha hs
    · intro start s hs
      rw [hcall] at hs
      refine runs_templatableMember_call rfl ?_ hs
      exact fun s t ht hs => runs_ctorRest ht hspecial ha hs
  | @method name result args isConst template span hn hr ha ht =>
    refine runs_member_header ht ?_ ?_ hs
    · intro hnone s hs
      rw [lead_append result.flush_words.ne_nil, List.append_assoc, callableWords_append] at hs
      refine runs_member_typed hr.written (by simp [Token.ident, Token.word]) ?_ hs
      intro start s hs
      rw [hnone]
      exact runs_typedMember_method hr ha hs
    · exact fun start s hs => runs_templatableMember_method hr ha hs
  | @static name result args template span hn hr ha ht =>
    -- with or without a header the same rule reads it
    have hstatic : ∀ {template start s g}, At s (lead g (.sign .kwStatic ::
        lead " " (result.words ++ callableWords name args [.sign .semicolon])) ++ us) →
        Runs (templatableMember h template start) s fun m s' => m.eraseSpans = Member.eraseSpans
          (.static ⟨name, result, args, h.selfType, template, span, none⟩) ∧ At s' us := by
      intro template start s g hs
      refine (runs_eat (k := .kwStatic) hs rfl (by decide)).seq ?_
      intro s1 h1
      exact runs_staticRest hr ha h1
    refine runs_member_header ht ?_ ?_ hs
    · intro hnone s hs
      refine (runs_peek_kind hs (by simp)).bind ?_
      intro t s1 h1
      have hk : t.kind = .kwStatic := h1.1
      rw [hk, hnone]
      exact hstatic h1.2
    · exact fun start s hs => hstatic hs
  | @special name args span hn hspecial ha =>
    rw [Member.words, SpecialMethod.words, lead_cons, List.cons_append, List.append_assoc] at hs
    refine runs_member_call rfl ?_ hs
    intro start s t ht hs
    exact runs_ctorRest_special (ht ▸ hspecial) ha hs
  | @operator symbol result args isConst span hr ha =>
    rw [Member.words, OperatorMethod.words, lead_append result.flush_words.ne_nil] at hs
    simp only [List.append_assoc, List.cons_append] at hs
    refine runs_member_typed hr.written (by simp) ?_ hs
    exact fun start s hs => runs_typedMember_operator hr ha hs
  | @property type name d? span ht hn hd =>
    rw [Member.words, VariableDecl.words, headerWords, lead_append type.flush_words.ne_nil] at hs
    simp only [List.append_assoc, List.cons_append, List.nil_append] at hs
    refine runs_member_typed ht (by simp [Token.ident, Token.word]) ?_ hs
    exact fun start s hs => runs_typedMember_property ht hd hs
  | @enumeration d hd =>
    refine (runs_peek_kind hs (by simp [Member.words, EnumDecl.words])).bind ?_
    intro t s1 h1
    have hk : t.kind = .kwEnum := h1.1
    rw [hk]
    refine (runs_enumeration hd h1.2).bind ?_
    intro d' s2 h2
    exact .pure ⟨congrArg Member.enumeration h2.1, h2.2⟩

/-! ## Classes -/

theorem headKind_headerWords {ws : List Token} (template : Option Template) (g : String)
    (hne : ws ≠ []) (us : List Token) : headKind (lead g (headerWords template ws) ++ us) = .kwTemplate ∨
      headKind (lead g (headerWords template ws) ++ us) = headKind ws := by
  cases template with
  | none => exact .inr (headKind_lead_append hne g us)
  | some t => exact .inl (by simp [headerWords, Template.words])

/-- No member begins with a closing brace. -/
theorem headKind_member {m : Member} (hm : m.WellFormed h) (g : String) (us : List Token) :
    headKind (lead g m.words ++ us) ≠ .rightBrace := by
  have hheader : ∀ (template : Option Template) (ws : List Token), ws ≠ [] →
      headKind ws ≠ .rightBrace → headKind (lead g (headerWords template ws) ++ us) ≠ .rightBrace := by
    intro template ws hne hws
    rcases headKind_headerWords template g hne us with hk | hk
    · simp [hk]
    · rwa [hk]
  have htyped : ∀ (t : TypeExpr) (ws : List Token), t.WellFormed false →
      headKind (t.words ++ ws) ≠ .rightBrace := by
    intro t ws ht
    rw [headKind_append t.flush_words.ne_nil]
    exact headKind_words_ne ht rfl
  cases hm with
  | ctor => exact hheader _ _ (by simp) (by simp [Token.ident, Token.word])
  | @method name result args isConst template span hn hr ha ht =>
    exact hheader _ _ (result.flush_words.append _).ne_nil (htyped _ _ hr.written)
  | static => exact hheader _ _ (by simp) (by simp)
  | special => simp [Member.words, SpecialMethod.words, Token.ident, Token.word]
  | @operator symbol result args isConst span hr ha =>
    exact hheader none _ (result.flush_words.append _).ne_nil (htyped _ _ hr.written)
  | @property type name d? span ht hn hd =>
    exact hheader none _ (type.flush_words.append _).ne_nil (htyped _ _ ht)
  | enumeration => simp [Member.words, EnumDecl.words]

/-- The body of a class, of which the members are grouped. -/
theorem runs_classBody {ms : List Member} {span : Span}
    (hms : ∀ m ∈ (h.close ms span).members, m.WellFormed h)
    (hs : At s ((Token.sign .leftBrace).behind g ::
      ((h.close ms span).members.flatMap (fun m => lead "\n  " m.words) ++
        (Token.sign .rightBrace).behind "\n" :: .sign .semicolon :: us))) :
    Runs (classBody h start) s
      fun c s' => c.eraseSpans = (h.close ms span).eraseSpans ∧ At s' us := by
  refine (runs_expect (k := .leftBrace) hs rfl (by decide)).drop ?_
  intro _ s1 h1
  obtain ⟨g', h1⟩ := h1.2.exists_gap
  refine (runs_manyWhile (R := fun m m' => m'.eraseSpans = m.eraseSpans) (Q := fun _ => True)
    ?_ ?_ ?_ (fun _ _ _ => trivial) trivial ?_ h1).bind ?_
  · intro m hm g s vs hs
    rw [lead_lead] at hs
    rw [bne_iff_ne]
    exact hs.peek_kind_ne (headKind_member (hms m hm) _ _) (by decide)
  · intro m hm g s vs hs _
    rw [lead_lead] at hs
    exact runs_member (hms m hm) hs
  · intro m hm
    obtain ⟨w, ws, he, -⟩ := Member.flush_words (hms m hm)
    simp [he]
  · intro s hs
    rw [hs.peek_kind_eq (by simp)]
    rfl
  · intro ms' s2 h2
    refine (runs_expect (k := .rightBrace) h2.2 rfl (by decide)).drop ?_
    intro _ s3 h3
    -- the members read are alike up to their places, so their groups are
    refine runs_end (fun span' => ?_) h3.2
    rw [h.eraseSpans_close, map_eq_map_of_forall₂ h2.1.flip, ← h.eraseSpans_close _ span, h.close_members]

/-- What stands behind the parent of a class or of its forward declaration. -/
def classRest (namespaces : List String) (template : Option Template) (start : Span)
    (isVirtual : Bool) (nameToken : Token) (name : Typename) (parent : Option TypeExpr) :
    Parse Declaration := do
  if ← eat .semicolon then
    let span ← spanFrom start
    pure (.forward ⟨name.name, name, parent, isVirtual, template, namespaces, span, none⟩)
  else if name.namespaces.isEmpty && !name.isTemplated then
    let c ← classBody ⟨name.name, template, isVirtual, parent, namespaces⟩ start
    pure (.cls c)
  else
    fail .invalidDeclaration nameToken.span
      ("class definition name must be a plain identifier, found '" ++ name.text ++ "'")

theorem runs_optionalParent {parent : Option TypeExpr} (hp : ∀ t ∈ parent, t.WellFormed false)
    (hus : EndsType us) (hcolon : headKind us ≠ .colon) (hs : At s (parentWords parent ++ us)) :
    Runs optionalParent s fun p s' => p = parent ∧ At s' us := by
  cases parent with
  | none =>
    refine (runs_eat_no hs hcolon (by decide)).seq ?_
    intro s1 h1
    exact .pure ⟨rfl, h1⟩
  | some t =>
    refine (runs_eat (k := .colon) hs rfl (by decide)).seq ?_
    intro s1 h1
    refine (runs_typeUse (hp t rfl) h1 hus).seq ?_
    intro s2 h2
    exact .pure ⟨rfl, h2⟩

/-- The name and the parent of a class or of its forward declaration. -/
theorem runs_classOrForward {ns : List String} {template : Option Template} {isVirtual : Bool}
    {name : Typename} {parent : Option TypeExpr} {ends : List Token}
    {Q : Declaration → TokenStream → Prop} (hn : name.WellFormed false)
    (hp : ∀ t ∈ parent, t.WellFormed false)
    (hends : headKind (ends ++ us) = .semicolon ∨ headKind (ends ++ us) = .leftBrace)
    (hrest : ∀ s t, At s (ends ++ us) →
      Runs (classRest ns template start isVirtual t name parent) s Q)
    (hs : At s (lead g (classWords isVirtual name.words parent ends) ++ us)) :
    Runs (classOrForward ns template start) s Q := by
  obtain ⟨g', hvirtual⟩ := runs_eat_flag (by simp) (by simp) (by decide) hs
  refine hvirtual.seq ?_
  intro s1 h1
  simp only [lead_cons, List.cons_append, List.append_assoc] at h1
  refine (runs_expect (k := .kwClass) h1 rfl (by decide)).drop ?_
  intro _ s2 h2
  have hhead : headKind (lead " " name.words ++ (parentWords parent ++ (ends ++ us))) ≠ .greater := by
    rw [headKind_lead_append name.flush_words.ne_nil, name.words_eq]
    exact headKind_words_ne (hn false none) rfl
  refine (runs_peek_kind h2.2 hhead).bind ?_
  intro nameToken s3 h3
  -- behind the name stands the colon of the parent or what ends the head
  have hparent : EndsType (parentWords parent ++ (ends ++ us)) := by
    cases parent with
    | none => rcases hends with hk | hk <;> simp [EndsType, parentWords, hk]
    | some t => simp [EndsType, parentWords]
  have hname : headKind (parentWords parent ++ (ends ++ us)) ≠ .less ∧
      headKind (parentWords parent ++ (ends ++ us)) ≠ .colonColon := by
    constructor <;> (intro he; rw [EndsType, he] at hparent; simp at hparent)
  refine (runs_typename hn h3.2 hname).seq ?_
  intro s4 h4
  have hcolon : EndsType (ends ++ us) ∧ headKind (ends ++ us) ≠ .colon := by
    rcases hends with hk | hk <;> simp [EndsType, hk]
  refine (runs_optionalParent hp hcolon.1 hcolon.2 h4).seq ?_
  intro s5 h5
  exact hrest s5 nameToken h5

/-- A forward declaration, up to its place. -/
theorem runs_forward {ns : List String} {template : Option Template} {isVirtual : Bool}
    {name : Typename} {parent : Option TypeExpr} {span : Span} (hn : name.WellFormed false)
    (hp : ∀ t ∈ parent, t.WellFormed false)
    (hs : At s (lead g (classWords isVirtual name.words parent [.sign .semicolon]) ++ us)) :
    Runs (classOrForward ns template start) s fun d s' => d.eraseSpans = Declaration.eraseSpans
      (.forward ⟨name.name, name, parent, isVirtual, template, ns, span, none⟩) ∧ At s' us := by
  refine runs_classOrForward hn hp (.inl rfl) ?_ hs
  intro s t hs
  refine (runs_eat (k := .semicolon) hs rfl (by decide)).seq ?_
  intro s1 h1
  refine (runs_spanFrom start h1).bind ?_
  intro span' s2 h2
  exact .pure ⟨rfl, h2⟩

/-- A class, up to its place and those of its members. -/
theorem runs_class {ns : List String} {ms : List Member} {span : Span} (hh : h.WellFormed ns)
    (hms : ∀ m ∈ ms, m.WellFormed h)
    (hs : At s (lead g (classWords h.isVirtual (nameWords h.name) h.parent
      ((Token.sign .leftBrace).behind " " ::
        ((h.close ms span).members.flatMap (fun m => lead "\n  " m.words) ++
          [(Token.sign .rightBrace).behind "\n", .sign .semicolon]))) ++ us)) :
    Runs (classOrForward ns h.template start) s fun d s' =>
      d.eraseSpans = Declaration.eraseSpans (.cls (h.close ms span)) ∧ At s' us := by
  rw [nameWords_eq] at hs
  refine runs_classOrForward hh.name.typename hh.parent (.inr rfl) ?_ hs
  intro s t hs
  refine (runs_eat_no (k := .semicolon) hs (by simp) (by decide)).seq ?_
  intro s1 h1
  obtain rfl : h.namespaces = ns := hh.namespaces
  simp only [List.cons_append, List.append_assoc, List.nil_append] at h1
  refine (runs_classBody (fun m hm => hms m (h.members_close ms span hm)) h1).bind ?_
  intro c s2 h2
  exact .pure ⟨congrArg Declaration.cls h2.1, h2.2⟩

end Parse

end TemplateIdl
