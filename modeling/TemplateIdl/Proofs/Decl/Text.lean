import TemplateIdl.Proofs.Decl.WellFormed

/-!
# Text of declarations — the words of a declaration have its text

* `chars_argumentsWords`, `Template.chars_words` and `ReturnType.chars_words`, what declarations
  share;
* `Member.chars_words` and `ClassDecl.chars_words`, members and classes;
* `Declaration.chars_words` and `Interface.chars_words`, all declarations and whole files, of which
  the last line feed is no part of a word.
-/

namespace TemplateIdl

/-! ## What declarations share -/

theorem Argument.flush_words (a : Argument) : Flush a.words :=
  a.type.flush_words.append _

theorem Argument.chars_words {a : Argument} (h : a.WellFormed) :
    Token.chars a.words = a.text.toList := by
  simp only [words, text, Token.chars_append, Token.chars_cons, TypeExpr.chars_words,
    chars_optionWords h.isDefault, String.toList_append, List.append_assoc]
  rfl

theorem chars_argumentsWords {args : List Argument} (h : ∀ a ∈ args, a.WellFormed) :
    Token.chars (argumentsWords args) = ("(" ++ argumentsText args ++ ")").toList := by
  have hargs : Token.chars (joinWords (args.map Argument.words)) = (argumentsText args).toList :=
    chars_joinWords_map fun a ha => ⟨a.flush_words, Argument.chars_words (h a ha)⟩
  simp only [argumentsWords, Token.chars_append, Token.chars_cons, hargs, String.toList_append,
    List.append_assoc]
  rfl

theorem TemplateParam.flush_words (p : TemplateParam) : Flush p.words := flush_cons rfl _

theorem TemplateParam.chars_words (p : TemplateParam) : Token.chars p.words = p.text.toList := by
  have hchoices : Token.chars (joinWords (p.choices.map TypeExpr.words)) =
      (String.intercalate ", " (p.choices.map TypeExpr.text)).toList :=
    chars_joinWords_map fun t _ => ⟨t.flush_words, t.chars_words⟩
  rw [words, text]
  split
  · simp [Token.ident]
  · simp only [Token.chars_append, Token.chars_cons, hchoices, String.toList_append,
      List.append_assoc]
    rfl

theorem Template.flush_words (t : Template) : Flush t.words := flush_cons rfl _

theorem Template.chars_words (t : Template) : Token.chars t.words = t.text.toList := by
  have hparams : Token.chars (joinWords (t.params.map TemplateParam.words)) =
      (String.intercalate ", " (t.params.map TemplateParam.text)).toList :=
    chars_joinWords_map fun p _ => ⟨p.flush_words, p.chars_words⟩
  simp only [words, text, Token.chars_append, Token.chars_cons, hparams, String.toList_append,
    List.append_assoc]
  rfl

theorem flush_headerWords {ws : List Token} (h : Flush ws) (template : Option Template) :
    Flush (headerWords template ws) := by
  cases template with
  | none => exact h
  | some t => exact t.flush_words.append _

theorem chars_headerWords {ws : List Token} (h : Flush ws) (template : Option Template) :
    Token.chars (headerWords template ws) = (headerText template).toList ++ Token.chars ws := by
  cases template with
  | none => rfl
  | some t =>
    rw [headerWords, headerText, Token.chars_append, t.chars_words, chars_lead h,
      String.toList_append, List.append_assoc]

theorem ReturnType.flush_words (r : ReturnType) : Flush r.words := r.written.flush_words

theorem ReturnType.chars_words (r : ReturnType) : Token.chars r.words = r.text.toList := by
  rw [words, TypeExpr.chars_words]
  cases r with
  | single t => rfl
  | pair s t => simp [written, text, TypeExpr.text, angled, pathText, indirectionText]

theorem chars_methodEnd (isConst : Bool) :
    Token.chars (methodEnd isConst) = (constText isConst ++ ";").toList := by
  cases isConst <;> decide

/-- A name has the words of the type use without qualifiers. -/
theorem Typename.words_eq (t : Typename) : t.words = (TypeExpr.ofTypename t false none).words := by
  obtain ⟨ns, name, args⟩ := t
  show _ = (TypeExpr.mk ns name args false none _).words
  rw [TypeExpr.words, TypeExpr.wordsList_eq_map, flagWords_false, signWords, List.append_nil]
  rfl

theorem nameWords_eq (name : String) : nameWords name = (Typename.simple name).words := by
  rw [Typename.words]
  simp [Typename.simple, pathWords, angledWords]

theorem Typename.flush_words (t : Typename) : Flush t.words :=
  (flush_pathWords t.namespaces t.name).append _

theorem Typename.chars_words (t : Typename) : Token.chars t.words = t.text.toList := by
  rw [words, Token.chars_append, chars_pathWords,
    chars_angledWords fun a _ => ⟨a.flush_words, a.chars_words⟩, text, qualifiedName,
    String.toList_append]

theorem chars_parentWords (parent : Option TypeExpr) :
    Token.chars (parentWords parent) = (parentText parent).toList := by
  cases parent with
  | none => rfl
  | some t =>
    rw [parentWords, parentText, Token.chars_cons, chars_lead t.flush_words, t.chars_words,
      String.toList_append]
    rfl

theorem chars_callableWords {args : List Argument} (h : ∀ a ∈ args, a.WellFormed) (name : String)
    (ends : List Token) :
    Token.chars (callableWords name args ends) =
      (" " ++ name ++ "(" ++ argumentsText args ++ ")").toList ++ Token.chars ends := by
  simp only [callableWords, Token.chars_append, Token.chars_cons, chars_argumentsWords h,
    String.toList_append, List.append_assoc]
  rfl

/-! ## Members -/

theorem chars_operator (o : OperatorSymbol) :
    Token.chars (o.kinds.map Token.sign) = o.text.toList := by
  cases o <;> decide

theorem EnumDecl.flush_words (d : EnumDecl) : Flush d.words := flush_cons rfl _

theorem EnumDecl.chars_words (d : EnumDecl) : Token.chars d.words = d.text.toList := by
  have hnames : Token.chars (joinWords (d.enumerators.map fun n => [Token.ident n])) =
      (String.intercalate ", " d.enumerators).toList := by
    have hnames : Token.chars (joinWords (d.enumerators.map fun n => [Token.ident n])) =
        (String.intercalate ", " (d.enumerators.map id)).toList :=
      chars_joinWords_map fun n _ => ⟨flush_cons rfl _, by simp [Token.ident]⟩
    rwa [List.map_id] at hnames
  have hname : Flush (Token.ident d.name :: (Token.sign .leftBrace).behind " " ::
      (joinWords (d.enumerators.map fun n => [Token.ident n]) ++
        [.sign .rightBrace, .sign .semicolon])) := flush_cons rfl _
  rw [words, text, Token.chars_cons, chars_lead (flush_flagWords hname _ _),
    chars_flagWords hname (k := .kwClass) rfl]
  simp only [Token.chars_append, Token.chars_cons, hnames, String.toList_append, List.append_assoc]
  cases d.isScoped <;> rfl

theorem VariableDecl.chars_words {d : VariableDecl} (h : ∀ v ∈ d.default?, IsDefault v) :
    Token.chars d.words = d.text.toList := by
  rw [words, text, chars_headerWords (d.type.flush_words.append _)]
  simp only [Token.chars_append, Token.chars_cons, TypeExpr.chars_words, chars_optionWords h,
    String.toList_append, List.append_assoc]
  rfl

theorem WellFormedDefault.isDefault {d? : Option String} (h : WellFormedDefault d?) :
    ∀ d ∈ d?, IsDefault d := fun d hd => (h d hd).1

/-- The words of a member have its text. -/
theorem Member.chars_words {h : ClassHead} {m : Member} (hm : m.WellFormed h) :
    Flush m.words ∧ Token.chars m.words = m.text.toList := by
  cases hm with
  | @ctor args template span hn hs ha ht =>
    have hname : Flush (Token.ident h.name :: (argumentsWords args ++ [.sign .semicolon])) :=
      flush_cons rfl _
    refine ⟨flush_headerWords hname template, ?_⟩
    simp only [words, text, Constructor.words, Constructor.text, chars_headerWords hname,
      Token.chars_append, Token.chars_cons, chars_argumentsWords ha.each, String.toList_append,
      List.append_assoc]
    rfl
  | @method name result args isConst template span hn hr ha ht =>
    have hresult := result.flush_words.append (callableWords name args (methodEnd isConst))
    refine ⟨flush_headerWords hresult template, ?_⟩
    simp only [words, text, Method.words, Method.text, chars_headerWords hresult,
      Token.chars_append, ReturnType.chars_words, chars_callableWords ha.each, chars_methodEnd,
      String.toList_append, List.append_assoc]
  | @static name result args template span hn hr ha ht =>
    have hresult := result.flush_words.append (callableWords name args [.sign .semicolon])
    have hstatic : Flush (Token.sign .kwStatic ::
        lead " " (result.words ++ callableWords name args [.sign .semicolon])) := flush_cons rfl _
    refine ⟨flush_headerWords hstatic template, ?_⟩
    simp only [words, text, StaticMethod.words, StaticMethod.text, chars_headerWords hstatic,
      Token.chars_cons, chars_lead hresult, Token.chars_append, ReturnType.chars_words,
      chars_callableWords ha.each, String.toList_append, List.append_assoc]
    rfl
  | @special name args span hn hs ha =>
    refine ⟨flush_cons rfl _, ?_⟩
    simp only [words, text, SpecialMethod.words, SpecialMethod.text, Token.chars_append,
      Token.chars_cons, chars_argumentsWords ha.each, Token.ident, Token.lexeme_word,
      String.toList_append, List.append_assoc]
    rfl
  | @operator symbol result args isConst span hr ha =>
    refine ⟨result.flush_words.append _, ?_⟩
    simp only [words, text, OperatorMethod.words, OperatorMethod.text, Token.chars_append,
      Token.chars_cons, ReturnType.chars_words, chars_operator, chars_argumentsWords ha.each,
      chars_methodEnd, String.toList_append, List.append_assoc]
    rfl
  | @property type name default? span ht hn hd =>
    exact ⟨flush_headerWords (type.flush_words.append _) none,
      VariableDecl.chars_words hd.isDefault⟩
  | @enumeration d hd => exact ⟨d.flush_words, d.chars_words⟩

theorem Member.flush_words {h : ClassHead} {m : Member} (hm : m.WellFormed h) : Flush m.words :=
  (Member.chars_words hm).1

/-! ## Classes -/

theorem map_filterMap_subset {α β : Type} {f : α → Option β} {g : β → α}
    (h : ∀ a b, f a = some b → g b = a) (as : List α) : (as.filterMap f).map g ⊆ as := by
  intro a ha
  obtain ⟨b, hb, rfl⟩ := List.mem_map.1 ha
  obtain ⟨a', ha', hab⟩ := List.mem_filterMap.1 hb
  rw [h a' b hab]
  exact ha'

/-- Grouping adds no members. -/
theorem ClassHead.members_close (h : ClassHead) (ms : List Member) (span : Span) :
    (h.close ms span).members ⊆ ms := by
  intro m hm
  simp only [ClassDecl.members, List.mem_append, close] at hm
  rcases hm with (((((hm | hm) | hm) | hm) | hm) | hm) | hm
  all_goals
    refine map_filterMap_subset ?_ ms hm
    intro a b hab
    cases a <;> cases hab
    rfl

theorem flush_classWords (isVirtual : Bool) (name : List Token) (parent : Option TypeExpr)
    (ends : List Token) : Flush (classWords isVirtual name parent ends) :=
  flush_flagWords (flush_cons rfl _) _ _

theorem chars_classWords {name : List Token} (h : Flush name) (isVirtual : Bool)
    (parent : Option TypeExpr) (ends : List Token) :
    Token.chars (classWords isVirtual name parent ends) =
      (virtualText isVirtual ++ "class ").toList ++
        (Token.chars name ++ ((parentText parent).toList ++ Token.chars ends)) := by
  have hvirtual : virtualText isVirtual = if isVirtual then "virtual" ++ " " else "" := rfl
  have hclass : Flush (Token.sign .kwClass :: (lead " " name ++ (parentWords parent ++ ends))) :=
    flush_cons rfl _
  rw [classWords, chars_flagWords hclass (k := .kwVirtual) rfl, hvirtual]
  simp only [Token.chars_append, Token.chars_cons, chars_lead h, chars_parentWords,
    String.toList_append, List.append_assoc]
  rfl

/-- Lines that begin with `g` are the texts behind `g`, each with a line feed in front. -/
theorem chars_flatMap_lead {α : Type} {f : α → List Token} {text : α → String} {g : String}
    {xs : List α} (h : ∀ x ∈ xs, Flush (f x) ∧ Token.chars (f x) = (text x).toList) :
    Token.chars (xs.flatMap fun x => lead ("\n" ++ g) (f x)) ++ ['\n'] =
      '\n' :: (joinLines (xs.map fun x => g ++ text x)).toList := by
  induction xs with
  | nil => rfl
  | cons x xs ih =>
    obtain ⟨hflush, hchars⟩ := h x (by simp)
    have hrest := ih fun y hy => h y (List.mem_cons_of_mem x hy)
    rw [List.flatMap_cons, Token.chars_append, List.append_assoc, hrest, chars_lead hflush, hchars,
      List.map_cons, joinLines_cons]
    simp only [String.toList_append, List.append_assoc]
    rfl

/-- The words of a class have its text. -/
theorem ClassDecl.chars_words {ns : List String} {c : ClassDecl} (h : c.WellFormed ns) :
    Token.chars c.words = c.text.toList := by
  have hmembers : ∀ m ∈ c.members, Flush m.words ∧ Token.chars m.words = m.text.toList := by
    obtain ⟨head, ms, span, -, hms, rfl⟩ := h
    exact fun m hm => Member.chars_words (hms m (head.members_close ms span hm))
  have hlines := chars_flatMap_lead (g := "  ") hmembers
  have hbody : Token.chars (c.members.flatMap (fun m => lead "\n  " m.words) ++
      [(Token.sign .rightBrace).behind "\n", .sign .semicolon]) =
      '\n' :: ((joinLines (c.memberTexts.map ("  " ++ ·))).toList ++ "\x7d;".toList) := by
    -- the texts are grouped by kind, as the members are
    rw [c.memberTexts_eq, List.map_map, ← List.cons_append]
    show _ = '\n' :: (joinLines (c.members.map fun m => "  " ++ m.text)).toList ++ _
    rw [← hlines, Token.chars_append, List.append_assoc]
    rfl
  rw [words, text, chars_headerWords (flush_classWords _ _ _ _),
    chars_classWords (flush_nameWords c.name), Token.chars_cons, hbody, chars_nameWords]
  simp only [String.toList_append, List.append_assoc]
  rfl

/-! ## Declarations -/

theorem FunctionDecl.chars_words {d : FunctionDecl} (h : ∀ a ∈ d.args, a.WellFormed) :
    Token.chars d.words = d.text.toList := by
  rw [words, text, chars_headerWords (d.result.flush_words.append _), Token.chars_append,
    ReturnType.chars_words, chars_callableWords h]
  simp only [String.toList_append, List.append_assoc]
  rfl

theorem ForwardDecl.chars_words (d : ForwardDecl) : Token.chars d.words = d.text.toList := by
  rw [words, text, chars_headerWords (flush_classWords _ _ _ _),
    chars_classWords d.typename.flush_words, d.typename.chars_words]
  simp only [String.toList_append, List.append_assoc]
  rfl

theorem TypedefDecl.chars_words (d : TypedefDecl) : Token.chars d.words = d.text.toList := by
  rw [words, text, Token.chars_cons, Token.chars_append, chars_lead d.target.flush_words,
    d.target.chars_words]
  simp only [Token.chars_cons, String.toList_append, List.append_assoc]
  rfl

namespace Declaration

theorem flush_words (d : Declaration) : Flush d.words := by
  cases d with
  | inclusion d => exact flush_cons rfl _
  | space name content span => rw [words]; exact flush_cons rfl _
  | cls d => exact flush_headerWords (flush_classWords _ _ _ _) _
  | forward d => exact flush_headerWords (flush_classWords _ _ _ _) _
  | enumeration d => exact d.flush_words
  | var d => exact flush_headerWords (d.type.flush_words.append _) _
  | function d => exact flush_headerWords (d.result.flush_words.append _) _
  | typedef d => exact flush_cons rfl _

/-- Declarations on lines of their own, each of which has its text. -/
theorem chars_contentWords {ds : List Declaration}
    (h : ∀ d ∈ ds, Token.chars d.words = d.text.toList) :
    Token.chars (contentWords ds) ++ ['\n'] = '\n' :: (contentText ds).toList := by
  have hlines := chars_flatMap_lead (g := "") (f := words) fun d hd => ⟨d.flush_words, h d hd⟩
  rw [contentWords_eq_flatMap, contentText_eq_joinLines]
  simpa using hlines

/-- The words of a declaration have its text. -/
theorem chars_words {ns : List String} {d : Declaration} (h : d.WellFormed ns) :
    Token.chars d.words = d.text.toList := by
  induction h with
  | @inclusion ns d hp => simp [words, text, IncludeDecl.words]
  | @space ns name content span hn hc ih =>
    have hcontent := chars_contentWords ih
    rw [words, text]
    simp only [Token.chars_cons, Token.chars_append, String.toList_append, List.append_assoc]
    show "namespace".toList ++ (" ".toList ++ (name.toList ++ (" \x7b".toList ++
      (Token.chars (contentWords content) ++ (['\n'] ++ "\x7d".toList))))) = _
    -- the line feed in front of the closing brace ends the last line of the content
    rw [← List.append_assoc (Token.chars (contentWords content)), hcontent]
    rfl
  | cls hd => exact ClassDecl.chars_words hd
  | forward => exact ForwardDecl.chars_words _
  | enumeration => exact EnumDecl.chars_words _
  | var _ _ hd _ => exact VariableDecl.chars_words hd.isDefault
  | function _ _ ha _ => exact FunctionDecl.chars_words ha.each
  | typedef => exact TypedefDecl.chars_words _

end Declaration

/-- The first declaration of a file has no line feed in front of it. -/
theorem Interface.words_cons (d : Declaration) (ds : List Declaration) :
    (⟨d :: ds⟩ : Interface).words = d.words ++ Declaration.contentWords ds := by
  obtain ⟨w, ws, he, hg⟩ := d.flush_words
  rw [words, Declaration.contentWords, he, lead_cons, List.cons_append, lead_cons, ← hg]
  rfl

/-- What stands behind the last word of a file. -/
def Interface.tail (m : Interface) : List Char :=
  if m.content.isEmpty then [] else ['\n']

/-- The words of a file and the last line feed are its text. -/
theorem Interface.chars_words {m : Interface} (h : m.WellFormed) :
    Token.chars m.words ++ m.tail = m.text.toList := by
  obtain ⟨content⟩ := m
  cases content with
  | nil => rfl
  | cons d ds =>
    have hall : ∀ e ∈ d :: ds, Token.chars e.words = e.text.toList :=
      fun e he => Declaration.chars_words (h e he)
    have hcontent := Declaration.chars_contentWords hall
    rw [Declaration.contentWords, Token.chars_append, chars_lead d.flush_words, List.append_assoc,
      List.append_assoc] at hcontent
    -- without the line feed in front of the first declaration
    rw [words_cons, Token.chars_append, List.append_assoc]
    exact (List.cons.inj hcontent).2

end TemplateIdl
