import TemplateIdl.Proofs.Decl.ClassRead

/-!
# Reading files — declarations and files are read from their words

* `Parse.runs_declaration`, one declaration with all that it contains, up to its place;
* `Parse.runs_interface`, whole files.
-/

namespace TemplateIdl

namespace Parse

variable {s : TokenStream} {us : List Token} {g : String} {ns : List String} {start : Span}

/-! ## Declarations without content -/

theorem runs_inclusion {d : IncludeDecl} (hp : IsIncludePath d.path)
    (hs : At s (lead g d.words ++ us)) :
    Runs inclusion s fun d' s' => d'.path = d.path ∧ At s' us := by
  refine (runs_expect (k := .includeDirective) hs rfl (by decide)).bind ?_
  intro t s1 h1
  have hlexeme : t.lexeme = "#include <" ++ d.path ++ ">" := (Token.bare_eq_iff.1 h1.1).2.1
  rw [hlexeme, includePath?_inclusion hp]
  exact .pure ⟨String.ofList_toList, h1.2⟩

theorem runs_typedef {type : TypeExpr} {newName : String} {span : Span}
    (ht : type.WellFormed false) (hargs : type.isTemplated = true)
    (hplain : type.isConst = false ∧ type.indirection = none)
    (hs : At s (lead g (TypedefDecl.words ⟨type.typename, newName, ns, span⟩) ++ us)) :
    Runs (typedef ns) s fun d' s' =>
      d'.target = type.typename ∧ d'.newName = newName ∧ d'.namespaces = ns ∧ At s' us := by
  -- the target is written without its sign, of which it has none
  have hwords : type.typename.words = type.words := by
    obtain ⟨ms, n, as, c, i, b⟩ := type
    obtain ⟨rfl, rfl⟩ := hplain
    rw [Typename.words_eq, TypeExpr.words, TypeExpr.ofTypename]
    rfl
  simp only [TypedefDecl.words, lead_cons, List.cons_append, List.append_assoc, List.nil_append,
    hwords] at hs
  refine (runs_expect (k := .kwTypedef) hs rfl (by decide)).bind ?_
  intro start s1 h1
  refine (runs_peek_kind h1.2 ?_).bind ?_
  · rw [headKind_lead_append type.flush_words.ne_nil]
    exact headKind_words_ne ht rfl
  intro targetToken s2 h2
  refine (runs_typeUse ht h2.2 (endsType_cons (k := .identifier) rfl (by decide) _)).seq ?_
  intro s3 h3
  rw [if_neg (by simp [hargs]), if_neg (by simp [hplain])]
  refine (runs_expectIdentifier h3 rfl).seq ?_
  intro s4 h4
  refine (runs_end (P := fun d' => d'.target = type.typename ∧ d'.newName = newName ∧
    d'.namespaces = ns) (fun _ => ⟨rfl, rfl, rfl⟩) h4).mono ?_
  exact fun d' s' h => ⟨h.1.1, h.1.2.1, h.1.2.2, h.2⟩

theorem runs_functionOrVariable_function {template : Option Template} {name : String}
    {result : ReturnType} {args : List Argument} {span : Span} (hr : result.WellFormed)
    (ha : WellFormedArguments args)
    (hs : At s (lead g (result.words ++ callableWords name args [.sign .semicolon]) ++ us)) :
    Runs (functionOrVariable ns template start) s fun d s' => d.eraseSpans = Declaration.eraseSpans
      (.function ⟨name, result, args, template, ns, span, none⟩) ∧ At s' us := by
  rw [lead_append result.flush_words.ne_nil, List.append_assoc, callableWords_append] at hs
  refine (runs_typeUse hr.written hs (endsType_cons (k := .identifier) rfl (by decide) _)).seq ?_
  intro s1 h1
  refine (runs_expectIdentifier h1 rfl).seq ?_
  intro s2 h2
  refine (runs_check (k := .leftParen) h2 rfl (by decide)).seq ?_
  intro s3 h3
  refine (runs_arguments ha h3).seq ?_
  intro s4 h4
  refine runs_end (fun _ => ?_) h4
  rw [hr.ofType_written]
  rfl

theorem runs_functionOrVariable_var {template : Option Template} {type : TypeExpr} {name : String}
    {d? : Option String} {span : Span} (ht : type.WellFormed false) (hd : WellFormedDefault d?)
    (hs : At s (lead g (type.words ++ (Token.ident name).behind " " ::
      (optionWords d? ++ [.sign .semicolon])) ++ us)) :
    Runs (functionOrVariable ns template start) s fun d s' => d.eraseSpans = Declaration.eraseSpans
      (.var ⟨type, name, d?, template, ns, none, span, none⟩) ∧ At s' us := by
  rw [lead_append type.flush_words.ne_nil] at hs
  simp only [List.append_assoc, List.cons_append, List.nil_append] at hs
  refine (runs_typeUse ht hs (endsType_cons (k := .identifier) rfl (by decide) _)).seq ?_
  intro s1 h1
  refine (runs_expectIdentifier h1 rfl).seq ?_
  intro s2 h2
  refine (runs_check_no (k := .leftParen) h2 (headKind_optionWords d?) (by decide)).seq ?_
  intro s3 h3
  exact runs_defaultEnd hd (fun _ => rfl) h3

/-! ## Declarations with a template header -/

variable {self : List String → Parse Declaration} {template : Option Template}
  {Q : Declaration → TokenStream → Prop}

/-- A class or its forward declaration, with or without a template header. -/
theorem runs_declarationRule_class {ws : List Token} (ht : ∀ t ∈ template, t.WellFormed)
    (hws : headKind ws = .kwClass ∨ headKind ws = .kwVirtual)
    (hrest : ∀ start g s, At s (lead g ws ++ us) → Runs (classOrForward ns template start) s Q)
    (hs : At s (lead g (headerWords template ws) ++ us)) : Runs (declarationRule self ns) s Q := by
  have hne : ws ≠ [] := by
    rintro rfl
    rcases hws with hk | hk <;> cases hk
  have hgreater : ∀ g, headKind (lead g ws ++ us) ≠ .greater := by
    intro g
    rw [headKind_lead_append hne]
    rcases hws with hk | hk <;> simp [hk]
  cases template with
  | none =>
    refine (runs_peek_kind hs (hgreater g)).bind ?_
    intro t s1 h1
    have hk : t.kind = headKind ws := h1.1.trans (headKind_lead_append hne g us)
    rcases hws with hw | hw
    · rw [hk, hw]
      exact hrest _ g s1 h1.2
    · rw [hk, hw]
      exact hrest _ g s1 h1.2
  | some header =>
    rw [headerWords, lead_append header.flush_words.ne_nil, List.append_assoc] at hs
    have hhead : headKind (lead g header.words ++ (lead " " ws ++ us)) = .kwTemplate :=
      headKind_lead_append header.flush_words.ne_nil g _
    refine (runs_peek_kind hs (by rw [hhead]; decide)).bind ?_
    intro t s1 h1
    rw [h1.1, hhead]
    refine (runs_templateHeader (ht header rfl) h1.2).seq ?_
    intro s2 h2
    refine (runs_peek_kind h2 (hgreater " ")).bind ?_
    intro next s3 h3
    rw [headKind_lead_append hne] at h3
    rw [if_pos (by rw [h3.1]; exact hws)]
    exact hrest _ " " s3 h3.2

/-- A function or a variable, with or without a template header. -/
theorem runs_declarationRule_typed {type : TypeExpr} {vs : List Token}
    (htype : type.WellFormed false) (ht : ∀ t ∈ template, t.WellFormed)
    (hrest : ∀ start g s, At s (lead g (type.words ++ vs) ++ us) →
      Runs (functionOrVariable ns template start) s Q)
    (hs : At s (lead g (headerWords template (type.words ++ vs)) ++ us)) :
    Runs (declarationRule self ns) s Q := by
  have hhead : ∀ g, headKind (lead g (type.words ++ vs) ++ us) = headKind type.words := by
    intro g
    rw [headKind_lead_append (type.flush_words.append _).ne_nil,
      headKind_append type.flush_words.ne_nil]
  have hne : ∀ {k : Kind}, k.beginsType = false → headKind type.words ≠ k :=
    fun hk => headKind_words_ne htype hk
  cases template with
  | none =>
    replace hs : At s (lead g (type.words ++ vs) ++ us) := hs
    refine (runs_peek_kind hs (by rw [hhead]; exact hne rfl)).bind ?_
    intro t s1 h1
    rw [hhead] at h1
    have hbegins : t.kind.beginsType = true := h1.1 ▸ beginsType_words htype
    -- no type use begins with any of the other kinds
    split
    · next hk => rw [hk] at hbegins; cases hbegins
    · next hk => rw [hk] at hbegins; cases hbegins
    · next hk => rw [hk] at hbegins; cases hbegins
    · next hk => rw [hk] at hbegins; cases hbegins
    · next hk => rw [hk] at hbegins; cases hbegins
    · next hk => rw [hk] at hbegins; cases hbegins
    · next hk => rw [hk] at hbegins; cases hbegins
    · exact hrest _ g s1 h1.2
    · exact hrest _ g s1 h1.2
    · next hk => rw [hk] at hbegins; cases hbegins
    · next hk => rw [hk] at hbegins; cases hbegins
    · next hconst hident _ _ =>
      rw [if_pos (Kind.isBasicType_of_beginsType hbegins hconst hident)]
      exact hrest _ g s1 h1.2
  | some header =>
    rw [headerWords, lead_append header.flush_words.ne_nil, List.append_assoc] at hs
    have hkind : headKind (lead g header.words ++ (lead " " (type.words ++ vs) ++ us)) =
        .kwTemplate := headKind_lead_append header.flush_words.ne_nil g _
    refine (runs_peek_kind hs (by rw [hkind]; decide)).bind ?_
    intro t s1 h1
    rw [h1.1, hkind]
    refine (runs_templateHeader (ht header rfl) h1.2).seq ?_
    intro s2 h2
    refine (runs_peek_kind h2 (by rw [hhead]; exact hne rfl)).bind ?_
    intro next s3 h3
    rw [hhead] at h3
    have hclass : ¬(next.kind = .kwClass ∨ next.kind = .kwVirtual) := by
      rw [h3.1, not_or]
      exact ⟨hne rfl, hne rfl⟩
    rw [if_neg hclass]
    exact hrest _ " " s3 h3.2

/-! ## All declarations -/

/-- The words of a class or its forward declaration begin with a keyword. -/
theorem headKind_classWords (isVirtual : Bool) (name : List Token) (parent : Option TypeExpr)
    (ends : List Token) : headKind (classWords isVirtual name parent ends) = .kwClass ∨
      headKind (classWords isVirtual name parent ends) = .kwVirtual := by
  cases isVirtual with
  | false => exact .inl rfl
  | true => exact .inr rfl

/-- Where the content of a namespace or a file goes on, neither of them ends. -/
theorem headKind_declaration {d : Declaration} (hd : d.WellFormed ns) (g : String)
    (us : List Token) :
    headKind (lead g d.words ++ us) ∉ [Kind.rightBrace, .eof, .greater] := by
  have hheader : ∀ (template : Option Template) (ws : List Token), ws ≠ [] →
      headKind ws ∉ [Kind.rightBrace, .eof, .greater] →
      headKind (lead g (headerWords template ws) ++ us) ∉
        [Kind.rightBrace, .eof, .greater] := by
    intro template ws hne hws
    rcases headKind_headerWords template g hne us with hk | hk
    · rw [hk]
      decide
    · rwa [hk]
  have hclass : ∀ (isVirtual : Bool) (name : List Token) (parent : Option TypeExpr)
      (ends : List Token), headKind (classWords isVirtual name parent ends) ∉
        [Kind.rightBrace, .eof, .greater] := by
    intro isVirtual name parent ends
    rcases headKind_classWords isVirtual name parent ends with hk | hk
    · rw [hk]
      decide
    · rw [hk]
      decide
  have htyped : ∀ (t : TypeExpr) (ws : List Token), t.WellFormed false →
      headKind (t.words ++ ws) ∉ [Kind.rightBrace, .eof, .greater] := by
    intro t ws ht hmem
    rw [headKind_append t.flush_words.ne_nil] at hmem
    have hall : ∀ k ∈ [Kind.rightBrace, .eof, .greater], k.beginsType = false := by
      decide
    exact headKind_words_ne ht (hall _ hmem) rfl
  cases hd with
  | inclusion => simp [Declaration.words, IncludeDecl.words, Token.word]
  | space => simp [Declaration.words]
  | cls => exact hheader _ _ (flush_classWords _ _ _ _).ne_nil (hclass _ _ _ _)
  | forward => exact hheader _ _ (flush_classWords _ _ _ _).ne_nil (hclass _ _ _ _)
  | enumeration => simp [Declaration.words, EnumDecl.words]
  | @var _ type name d? template span htype =>
    exact hheader _ _ (type.flush_words.append _).ne_nil (htyped _ _ htype)
  | @function _ name result args template span hn hr =>
    exact hheader _ _ (result.flush_words.append _).ne_nil (htyped _ _ hr.written)
  | typedef => simp [Declaration.words, TypedefDecl.words]

/-- The content of a namespace or a file in front of a token of kind `k`. -/
theorem runs_content {item : Parse Declaration} {content : List Declaration} {k : Kind}
    (hk : k ∈ [Kind.rightBrace, .eof]) (hcontent : ∀ d ∈ content, d.WellFormed ns)
    (hitem : ∀ d ∈ content, ∀ g us s, At s (lead g d.words ++ us) →
      Runs item s fun d' s' => d'.eraseSpans = d.eraseSpans ∧ At s' us)
    (hus : headKind us = k) (hs : At s (lead g (Declaration.contentWords content) ++ us)) :
    Runs (manyWhile (·.peek.kind != k) item) s fun ds s' =>
      ds.map Declaration.eraseSpans = content.map Declaration.eraseSpans ∧ At s' us := by
  have hbracket : k ≠ .greater ∧ k ≠ .greaterGreater ∧ k ∈ [Kind.rightBrace, .eof, .greater] := by
    have hall : ∀ k ∈ [Kind.rightBrace, .eof],
        k ≠ .greater ∧ k ≠ .greaterGreater ∧ k ∈ [Kind.rightBrace, .eof, .greater] := by decide
    exact hall k hk
  rw [Declaration.contentWords_eq_flatMap] at hs
  refine (runs_manyWhile (R := fun d d' => d'.eraseSpans = d.eraseSpans) (Q := fun _ => True)
    ?_ ?_ ?_ (fun _ _ _ => trivial) trivial ?_ hs).mono ?_
  · intro d hd g s vs hs
    rw [lead_lead] at hs
    rw [bne_iff_ne]
    refine hs.peek_kind_ne ?_ hbracket.2.1
    intro he
    exact headKind_declaration (hcontent d hd) g vs (he ▸ hbracket.2.2)
  · intro d hd g s vs hs _
    rw [lead_lead] at hs
    exact hitem d hd g vs s hs
  · intro d _
    obtain ⟨w, ws, he, -⟩ := d.flush_words
    simp [he]
  · intro s hs
    rw [hs.peek_kind_eq (by rw [hus]; exact hbracket.1), hus]
    simp
  · exact fun ds s' h => ⟨map_eq_map_of_forall₂ h.1.flip, h.2⟩

theorem totalWeight_contentWords {d : Declaration} {ds : List Declaration} (h : d ∈ ds) :
    Token.totalWeight d.words ≤ Token.totalWeight (Declaration.contentWords ds) := by
  induction ds with
  | nil => exact absurd h List.not_mem_nil
  | cons e ds ih =>
    rw [Declaration.contentWords, Token.totalWeight_append, Token.totalWeight_lead]
    rcases List.mem_cons.1 h with rfl | h
    · omega
    · have := ih h
      omega

/-- A namespace, of which the content is read by `self`. -/
theorem runs_space {name : String} {content : List Declaration} {span : Span}
    (hc : ∀ d ∈ content, d.WellFormed (ns ++ [name]))
    (hself : ∀ d ∈ content, ∀ g us s, At s (lead g d.words ++ us) →
      Runs (self (ns ++ [name])) s fun d' s' => d'.eraseSpans = d.eraseSpans ∧ At s' us)
    (hs : At s (lead g (Declaration.space name content span).words ++ us)) :
    Runs (space self ns) s fun d s' =>
      d.eraseSpans = (Declaration.space name content span).eraseSpans ∧ At s' us := by
  rw [Declaration.words] at hs
  simp only [lead_cons, List.cons_append, List.append_assoc, List.nil_append] at hs
  refine (runs_expect (k := .kwNamespace) hs rfl (by decide)).bind ?_
  intro start s1 h1
  refine (runs_expectIdentifier h1.2 rfl).seq ?_
  intro s2 h2
  refine (runs_expect (k := .leftBrace) h2 rfl (by decide)).drop ?_
  intro _ s3 h3
  obtain ⟨g', h3⟩ := h3.2.exists_gap
  refine (runs_content (k := .rightBrace) (by simp) hc hself (by simp) h3).bind ?_
  intro content' s4 h4
  refine (runs_expect (k := .rightBrace) h4.2 rfl (by decide)).drop ?_
  intro _ s5 h5
  refine (runs_spanFrom start.span h5.2).bind ?_
  intro span' s6 h6
  refine .pure ⟨?_, h6⟩
  -- both sides are the same namespace around contents alike up to places
  rw [Declaration.eraseSpans, Declaration.eraseSpans, Declaration.eraseContentSpans_eq_map,
    Declaration.eraseContentSpans_eq_map, h4.1]
  rfl

/-- One declaration, of which the content is read by `self`. -/
theorem runs_declarationRule {d : Declaration} (hd : d.WellFormed ns)
    (hself : ∀ (ns : List String) (e : Declaration), e.WellFormed ns →
      Token.totalWeight e.words < Token.totalWeight d.words →
      ∀ g us s, At s (lead g e.words ++ us) →
        Runs (self ns) s fun e' s' => e'.eraseSpans = e.eraseSpans ∧ At s' us)
    (hs : At s (lead g d.words ++ us)) :
    Runs (declarationRule self ns) s fun d' s' => d'.eraseSpans = d.eraseSpans ∧ At s' us := by
  cases hd with
  | @inclusion _ d hp =>
    refine (runs_peek_kind hs (by simp [Declaration.words, IncludeDecl.words, Token.word])).bind ?_
    intro t s1 h1
    have hk : t.kind = .includeDirective := h1.1
    rw [hk]
    refine (runs_inclusion hp h1.2).bind ?_
    intro d' s2 h2
    refine .pure ⟨?_, h2.2⟩
    rw [Declaration.eraseSpans, Declaration.eraseSpans, h2.1]
  | @space _ name content span hn hc =>
    have hkind : headKind (lead g (Declaration.space name content span).words ++ us) =
        .kwNamespace := by simp [Declaration.words]
    refine (runs_peek_kind hs (by rw [hkind]; decide)).bind ?_
    intro t s1 h1
    rw [h1.1, hkind]
    -- the content weighs less than the namespace around it
    refine runs_space hc ?_ h1.2
    intro d hd
    refine hself _ d (hc d hd) ?_
    have hle := totalWeight_contentWords hd
    have hpos := (Token.sign .kwNamespace).weight_pos
    rw [Declaration.words]
    simp only [Token.totalWeight, Token.totalWeight_append]
    omega
  | @cls _ c hd =>
    obtain ⟨h, ms, span, hh, hms, rfl⟩ := hd
    refine runs_declarationRule_class hh.template (headKind_classWords _ _ _ _) ?_ hs
    exact fun start g s hs => runs_class hh hms hs
  | @forward _ typename parent isVirtual template span hn hp ht =>
    refine runs_declarationRule_class ht (headKind_classWords _ _ _ _) ?_ hs
    exact fun start g s hs => runs_forward hn hp hs
  | @enumeration _ d hd =>
    rw [Declaration.words] at hs
    refine (runs_peek_kind hs (by simp [EnumDecl.words])).bind ?_
    intro t s1 h1
    have hk : t.kind = .kwEnum := h1.1
    rw [hk]
    refine (runs_enumeration hd h1.2).bind ?_
    intro d' s2 h2
    refine .pure ⟨?_, h2.2⟩
    rw [Declaration.eraseSpans, Declaration.eraseSpans, h2.1]
  | @var _ type name d? template span htype hn hd ht =>
    refine runs_declarationRule_typed htype ht ?_ hs
    exact fun start g s hs => runs_functionOrVariable_var htype hd hs
  | @function _ name result args template span hn hr ha ht =>
    refine runs_declarationRule_typed hr.written ht ?_ hs
    exact fun start g s hs => runs_functionOrVariable_function hr ha hs
  | @typedef _ type newName span htype hargs hplain hn =>
    refine (runs_peek_kind hs (by simp [Declaration.words, TypedefDecl.words])).bind ?_
    intro t s1 h1
    have hk : t.kind = .kwTypedef := h1.1
    rw [hk]
    refine (runs_typedef htype hargs hplain h1.2).bind ?_
    intro d' s2 h2
    obtain ⟨htarget, hname, hns, h2⟩ := h2
    refine .pure ⟨?_, h2⟩
    rw [Declaration.eraseSpans, Declaration.eraseSpans, htarget, hname, hns]

-- the weight of the words bounds how deep namespaces are nested in them
theorem runs_unfold_declarationRule {n : Nat} {d : Declaration} (hd : d.WellFormed ns)
    (hn : Token.totalWeight d.words ≤ n) (hs : At s (lead g d.words ++ us)) :
    Runs (unfold declarationRule n ns) s
      fun d' s' => d'.eraseSpans = d.eraseSpans ∧ At s' us := by
  induction n generalizing ns d g us s with
  | zero =>
    have hpos := Token.totalWeight_pos d.flush_words.ne_nil
    omega
  | succ n ih =>
    refine runs_declarationRule hd ?_ hs
    intro ns e he hlt g us s hs
    exact ih he (by omega) hs

/-- A declaration is read from its words, up to the places in it. -/
theorem runs_declaration {d : Declaration} (hd : d.WellFormed ns)
    (hs : At s (lead g d.words ++ us)) :
    Runs (declaration ns) s fun d' s' => d'.eraseSpans = d.eraseSpans ∧ At s' us := by
  refine .fix (runs_unfold_declarationRule hd ?_ hs)
  rw [hs.weight_eq, Token.totalWeight_append, Token.totalWeight_lead]
  omega

/-- A file is read from its words, up to the places in it. -/
theorem runs_interface {m : Interface} (hm : m.WellFormed) (hs : At s m.words) :
    Runs interface s fun m' _ => m'.eraseSpans = m.eraseSpans := by
  rw [Interface.words, ← List.append_nil (lead "" _)] at hs
  refine (runs_content (k := .eof) (by simp) hm (fun d hd g us s hs => runs_declaration (hm d hd) hs)
    rfl hs).bind ?_
  intro content s1 h1
  refine .pure ?_
  rw [Interface.eraseSpans, Interface.eraseSpans, Declaration.eraseContentSpans_eq_map,
    Declaration.eraseContentSpans_eq_map, h1.1]

end Parse

end TemplateIdl
