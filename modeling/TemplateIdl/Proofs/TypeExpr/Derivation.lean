import TemplateIdl.Proofs.TypeExpr.Read

/-!
# Derivation — the grammar of type uses

    TYPE(a) := 'const'? NAME(a) ('*' | '@' | '&')?
    NAME(a) := BASIC
             | 'unsigned' 'char'
             | INT                                              only if a
             | PATH ('<' TYPE(true) (',' TYPE(true))* '>')?
    PATH    := '::'? (IDENT '::')* IDENT

Here `a` tells whether the type use is a template argument, and `BASIC` is one of the words in
`Kind.basicWords`.

* `TypeDerivation`, the derivations, with the words that they derive and what they denote;
* `TypeDerivation.induct`, induction over a derivation and those of all arguments in it;
* `TypeDerivation.isDetermined`, the words of a type use have one derivation if nothing follows that
  can continue it, and `TypeDerivation.words_injective`, so no words have two derivations.
-/

namespace TemplateIdl

/-! ## Derivations -/

/-- The built-in types that are named by one word. -/
def Kind.basicWords : List Kind :=
  [kwVoid, kwBool, kwChar, kwInt, kwSizeT, kwDouble, kwFloat]

/-- The derivations from `PATH`. -/
structure PathDerivation where
  /-- Whether `::` stands in front. -/
  isAbsolute : Bool
  namespaces : List String
  name : String

mutual

/-- The derivations from `TYPE(inArgs)`. -/
inductive TypeDerivation : Bool → Type
  | mk {inArgs : Bool} (isConst : Bool) (name : NameDerivation inArgs)
      (sign : Option Indirection) : TypeDerivation inArgs

/-- The derivations from `NAME(inArgs)`. -/
inductive NameDerivation : Bool → Type
  | basic {inArgs : Bool} (k : Kind) (hk : k ∈ Kind.basicWords) : NameDerivation inArgs
  | unsignedChar {inArgs : Bool} : NameDerivation inArgs
  | integer (lexeme : String) : NameDerivation true
  /-- Without arguments there are no brackets. -/
  | path {inArgs : Bool} (p : PathDerivation) (args : List (TypeDerivation true)) :
      NameDerivation inArgs

end

/-! ## Words -/

/-- A word that may stand or not. -/
def optionalWord (k : Kind) (stands : Bool) : List Token := if stands then [.sign k] else []

/-- What follows the first segment of a path. -/
def segmentWords (segments : List String) : List Token :=
  segments.flatMap fun n => [.sign .colonColon, .ident n]

/-- What precedes the last segment of a path. -/
def namespaceWords (namespaces : List String) : List Token :=
  namespaces.flatMap fun n => [.ident n, .sign .colonColon]

/-- The words derived. -/
def PathDerivation.words (p : PathDerivation) : List Token :=
  optionalWord .colonColon p.isAbsolute ++ (namespaceWords p.namespaces ++ [.ident p.name])

mutual

/-- The words derived. -/
def TypeDerivation.words {inArgs : Bool} : TypeDerivation inArgs → List Token
  | .mk isConst name sign => optionalWord .kwConst isConst ++ (name.words ++ signWords sign)

/-- The words derived. -/
def NameDerivation.words {inArgs : Bool} : NameDerivation inArgs → List Token
  | .basic k _ => [.sign k]
  | .unsignedChar => [.sign .kwUnsigned, .sign .kwChar]
  | .integer lexeme => [.word .intLiteral lexeme]
  | .path p args => p.words ++ argsWords args

/-- The words derived in brackets. -/
def argsWords : List (TypeDerivation true) → List Token
  | [] => []
  | d :: ds => .sign .less :: (d.words ++ (moreWords ds ++ [.sign .greater]))

/-- The words derived, with a comma in front of each type use. -/
def moreWords : List (TypeDerivation true) → List Token
  | [] => []
  | d :: ds => .sign .comma :: (d.words ++ moreWords ds)

end

/-! ## What is denoted -/

/-- Whether the name is one of a built-in type. -/
def NameDerivation.isBasic {inArgs : Bool} : NameDerivation inArgs → Bool
  | .basic _ _ | .unsignedChar => true
  | .integer _ | .path _ _ => false

mutual

/-- The type use denoted. -/
def TypeDerivation.denote {inArgs : Bool} : TypeDerivation inArgs → TypeExpr
  | .mk isConst name sign => .ofParts name.denote isConst sign name.isBasic

/-- The name denoted. A `::` in front of it is not kept. -/
def NameDerivation.denote {inArgs : Bool} : NameDerivation inArgs → Typename
  | .basic k _ => .simple (k.spelling.getD "")
  | .unsignedChar => .simple "unsigned char"
  | .integer lexeme => .simple lexeme
  | .path p args => ⟨p.namespaces, p.name, denoteList args⟩

/-- The type uses denoted. -/
def denoteList : List (TypeDerivation true) → List TypeExpr
  | [] => []
  | d :: ds => d.denote :: denoteList ds

end

/-! ## Induction -/

/-- The derivations of the template arguments in order. -/
def NameDerivation.args {inArgs : Bool} : NameDerivation inArgs → List (TypeDerivation true)
  | .path _ args => args
  | .basic _ _ | .unsignedChar | .integer _ => []

/-- What holds of a derivation whenever it holds of those of its arguments holds of all
derivations. -/
@[elab_as_elim] theorem TypeDerivation.induct
    {motive : ∀ {inArgs : Bool}, TypeDerivation inArgs → Prop}
    (mk : ∀ {inArgs : Bool} (isConst : Bool) (name : NameDerivation inArgs)
      (sign : Option Indirection), (∀ d ∈ name.args, motive d) → motive (.mk isConst name sign))
    {inArgs : Bool} (d : TypeDerivation inArgs) : motive d :=
  @TypeDerivation.rec (fun _ d => motive d) (fun _ name => ∀ d ∈ name.args, motive d)
    (fun ds => ∀ d ∈ ds, motive d) (fun isConst name sign => mk isConst name sign)
    (fun _ _ _ hd => absurd hd List.not_mem_nil) (fun _ hd => absurd hd List.not_mem_nil)
    (fun _ _ hd => absurd hd List.not_mem_nil) (fun _ _ hargs => hargs)
    (fun _ hd => absurd hd List.not_mem_nil)
    (fun _ _ hd hds _ he => (List.mem_cons.1 he).elim (fun h => h ▸ hd) (hds _)) inArgs d

/-! ## The first word -/

theorem namespaceWords_append {ns rest : List String} {name first : String}
    (h : ns ++ [name] = first :: rest) :
    namespaceWords ns ++ [.ident name] = .ident first :: segmentWords rest := by
  induction ns generalizing first rest with
  | nil =>
    cases h
    rfl
  | cons n ns ih =>
    obtain ⟨second, more, hmore⟩ : ∃ second more, ns ++ [name] = second :: more :=
      List.exists_cons_of_ne_nil (by simp)
    rw [List.cons_append, hmore] at h
    cases h
    rw [namespaceWords, List.flatMap_cons, List.append_assoc]
    exact congrArg ([Token.ident n, .sign .colonColon] ++ ·) (ih hmore)

namespace PathDerivation

/-- With the first segment apart, `::` stands in front of all others. -/
theorem words_eq {p : PathDerivation} {first : String} {rest : List String}
    (h : p.namespaces ++ [p.name] = first :: rest) :
    p.words = optionalWord .colonColon p.isAbsolute ++ .ident first :: segmentWords rest := by
  rw [words, namespaceWords_append h]

theorem exists_segments (p : PathDerivation) :
    ∃ first rest, p.namespaces ++ [p.name] = first :: rest :=
  List.exists_cons_of_ne_nil (by simp)

/-- The kind of the first word. -/
def firstKind (p : PathDerivation) : Kind := if p.isAbsolute then .colonColon else .identifier

theorem firstKind_cases (p : PathDerivation) :
    p.firstKind = .colonColon ∨ p.firstKind = .identifier := by
  unfold firstKind
  split
  · exact .inl rfl
  · exact .inr rfl

theorem headKind_words_append (p : PathDerivation) (us : List Token) :
    headKind (p.words ++ us) = p.firstKind := by
  obtain ⟨first, rest, hp⟩ := p.exists_segments
  rw [words_eq hp, firstKind]
  cases p.isAbsolute <;> rfl

end PathDerivation

/-- The kind of the first word. -/
def NameDerivation.firstKind {inArgs : Bool} : NameDerivation inArgs → Kind
  | .basic k _ => k
  | .unsignedChar => .kwUnsigned
  | .integer _ => .intLiteral
  | .path p _ => p.firstKind

theorem NameDerivation.headKind_words_append {inArgs : Bool} (d : NameDerivation inArgs)
    (us : List Token) : headKind (d.words ++ us) = d.firstKind := by
  cases d with
  | basic k hk => rfl
  | unsignedChar => rfl
  | integer lexeme => rfl
  | path p args =>
    rw [words, List.append_assoc]
    exact p.headKind_words_append _

/-! ## Words have one derivation -/

theorem optionalWord_append_inj {k : Kind} {b c : Bool} {us vs : List Token}
    (h : optionalWord k b ++ us = optionalWord k c ++ vs) (hus : headKind us ≠ k)
    (hvs : headKind vs ≠ k) : b = c ∧ us = vs := by
  have hhead := congrArg headKind h
  cases b with
  | true =>
    cases c with
    | true => exact ⟨rfl, List.append_cancel_left h⟩
    | false => exact absurd hhead.symm hvs
  | false =>
    cases c with
    | true => exact absurd hhead hus
    | false => exact ⟨rfl, h⟩

theorem signWords_append_inj {i j : Option Indirection} {us vs : List Token}
    (h : signWords i ++ us = signWords j ++ vs) (hus : EndsType us) (hvs : EndsType vs) :
    i = j ∧ us = vs := by
  have hsign : i = j := by
    have hhead := congrArg headKind h
    clear h
    simp only [EndsType, List.mem_cons, List.not_mem_nil, or_false, not_or] at hus hvs
    rcases i with _ | _ | _ | _ <;> rcases j with _ | _ | _ | _ <;> simp_all [signWords]
  subst hsign
  exact ⟨rfl, List.append_cancel_left h⟩

theorem segmentWords_append_inj {ns ms : List String} {us vs : List Token}
    (h : segmentWords ns ++ us = segmentWords ms ++ vs) (hus : headKind us ≠ .colonColon)
    (hvs : headKind vs ≠ .colonColon) : ns = ms ∧ us = vs := by
  induction ns generalizing ms with
  | nil =>
    cases ms with
    | nil => exact ⟨rfl, h⟩
    | cons m ms => exact absurd (congrArg headKind h) hus
  | cons n ns ih =>
    cases ms with
    | nil => exact absurd (congrArg headKind h).symm hvs
    | cons m ms =>
      rw [segmentWords, segmentWords, List.flatMap_cons, List.flatMap_cons] at h
      simp only [List.cons_append, List.nil_append, List.cons.injEq, true_and] at h
      obtain ⟨hn, h⟩ := h
      obtain ⟨rfl, rfl⟩ := ih h
      exact ⟨by rw [show n = m from congrArg Token.lexeme hn], rfl⟩

theorem PathDerivation.words_append_inj {p q : PathDerivation} {us vs : List Token}
    (h : p.words ++ us = q.words ++ vs) (hus : headKind us ≠ .colonColon)
    (hvs : headKind vs ≠ .colonColon) : p = q ∧ us = vs := by
  obtain ⟨first, rest, hp⟩ := p.exists_segments
  obtain ⟨first', rest', hq⟩ := q.exists_segments
  rw [words_eq hp, words_eq hq, List.append_assoc, List.append_assoc] at h
  obtain ⟨habsolute, h⟩ := optionalWord_append_inj h (by simp [Token.ident, Token.word])
    (by simp [Token.ident, Token.word])
  obtain ⟨hfirst, h⟩ := List.cons.inj h
  obtain ⟨rfl, hrest⟩ := segmentWords_append_inj h hus hvs
  obtain rfl : first = first' := congrArg Token.lexeme hfirst
  obtain ⟨hns, hname⟩ := List.append_inj' (hp.trans hq.symm) rfl
  obtain ⟨isAbsolute, ns, name⟩ := p
  obtain ⟨isAbsolute', ns', name'⟩ := q
  dsimp only at habsolute hns hname
  rw [habsolute, hns, List.singleton_inj.1 hname]
  exact ⟨rfl, hrest⟩

/-- The words have no other derivation where nothing follows that can continue a type use. -/
def TypeDerivation.IsDetermined {inArgs : Bool} (d : TypeDerivation inArgs) : Prop :=
  ∀ (e : TypeDerivation inArgs) (us vs : List Token), d.words ++ us = e.words ++ vs →
    EndsType us → EndsType vs → d = e ∧ us = vs

/-- Behind a template argument stands a comma or a closing bracket. -/
theorem endsType_moreWords (ds : List (TypeDerivation true)) (us : List Token) :
    EndsType (moreWords ds ++ .sign .greater :: us) := by
  cases ds with
  | nil => simp [moreWords, EndsType]
  | cons d ds => simp [moreWords, EndsType]

theorem moreWords_append_inj {ds es : List (TypeDerivation true)} {us vs : List Token}
    (hds : ∀ d ∈ ds, d.IsDetermined)
    (h : moreWords ds ++ .sign .greater :: us = moreWords es ++ .sign .greater :: vs) :
    ds = es ∧ us = vs := by
  induction ds generalizing es with
  | nil =>
    cases es with
    | nil => exact ⟨rfl, (List.cons.inj h).2⟩
    | cons e es => cases congrArg headKind h
  | cons d ds ih =>
    cases es with
    | nil => cases congrArg headKind h
    | cons e es =>
      simp only [moreWords, List.cons_append, List.cons.injEq, List.append_assoc, true_and] at h
      obtain ⟨rfl, hmore⟩ := hds d List.mem_cons_self e _ _ h (endsType_moreWords ds us)
        (endsType_moreWords es vs)
      obtain ⟨rfl, hrest⟩ := ih (fun d hd => hds d (List.mem_cons_of_mem _ hd)) hmore
      exact ⟨rfl, hrest⟩

theorem argsWords_append_inj {ds es : List (TypeDerivation true)} {us vs : List Token}
    (hds : ∀ d ∈ ds, d.IsDetermined) (h : argsWords ds ++ us = argsWords es ++ vs)
    (hus : headKind us ≠ .less) (hvs : headKind vs ≠ .less) : ds = es ∧ us = vs := by
  cases ds with
  | nil =>
    cases es with
    | nil => exact ⟨rfl, h⟩
    | cons e es => exact absurd (congrArg headKind h) hus
  | cons d ds =>
    cases es with
    | nil => exact absurd (congrArg headKind h).symm hvs
    | cons e es =>
      simp only [argsWords, List.cons_append, List.cons.injEq, List.append_assoc, true_and,
        List.nil_append] at h
      obtain ⟨rfl, hmore⟩ := hds d List.mem_cons_self e _ _ h (endsType_moreWords ds us)
        (endsType_moreWords es vs)
      obtain ⟨rfl, hrest⟩ :=
        moreWords_append_inj (fun d hd => hds d (List.mem_cons_of_mem _ hd)) hmore
      exact ⟨rfl, hrest⟩

theorem headKind_argsWords {us : List Token} (h : headKind us ≠ .colonColon)
    (ds : List (TypeDerivation true)) : headKind (argsWords ds ++ us) ≠ .colonColon := by
  cases ds with
  | nil => exact h
  | cons d ds => exact fun he => by cases he

namespace NameDerivation

/-- The kinds of words that a name can begin with. -/
theorem firstKind_mem {inArgs : Bool} (name : NameDerivation inArgs) :
    name.firstKind ∈
      [Kind.kwUnsigned, .intLiteral, .colonColon, .identifier] ++ Kind.basicWords := by
  cases name with
  | basic k hk => exact List.mem_append_right _ hk
  | unsignedChar => simp [firstKind]
  | integer lexeme => simp [firstKind]
  | path p args => rcases p.firstKind_cases with hk | hk <;> simp [firstKind, hk]

theorem firstKind_ne {inArgs : Bool} (name : NameDerivation inArgs) {k : Kind}
    (hk : k ∉ [Kind.kwUnsigned, .intLiteral, .colonColon, .identifier] ++ Kind.basicWords) :
    name.firstKind ≠ k :=
  fun he => hk (he ▸ name.firstKind_mem)

/-- Two derivations that begin with the same rule. -/
inductive SameRule : {inArgs : Bool} → NameDerivation inArgs → NameDerivation inArgs → Prop
  | basic {inArgs : Bool} (k : Kind) (hk : k ∈ Kind.basicWords) :
      @SameRule inArgs (.basic k hk) (.basic k hk)
  | unsignedChar {inArgs : Bool} : @SameRule inArgs .unsignedChar .unsignedChar
  | integer (lexeme lexeme' : String) : SameRule (.integer lexeme) (.integer lexeme')
  | path {inArgs : Bool} (p q : PathDerivation) (ds es : List (TypeDerivation true)) :
      @SameRule inArgs (.path p ds) (.path q es)

/-- The first word tells the rule. -/
theorem sameRule_of_firstKind {inArgs : Bool} {d e : NameDerivation inArgs}
    (h : d.firstKind = e.firstKind) : SameRule d e := by
  have hbasic : ∀ k ∈ Kind.basicWords,
      k ≠ .kwUnsigned ∧ k ≠ .intLiteral ∧ k ≠ .colonColon ∧ k ≠ .identifier := by decide
  have hpath := PathDerivation.firstKind_cases
  -- different rules begin with different words
  cases d <;> cases e <;> simp only [firstKind] at h
  case basic.basic k hk k' hk' =>
    subst h
    exact .basic k hk
  case unsignedChar.unsignedChar => exact .unsignedChar
  case integer.integer l l' => exact .integer l l'
  case path.path p ds q es => exact .path p q ds es
  all_goals grind

theorem words_append_inj {inArgs : Bool} {name name' : NameDerivation inArgs}
    {us vs : List Token} (hargs : ∀ d ∈ name.args, d.IsDetermined)
    (h : name.words ++ us = name'.words ++ vs)
    (hus : headKind us ≠ .less ∧ headKind us ≠ .colonColon)
    (hvs : headKind vs ≠ .less ∧ headKind vs ≠ .colonColon) : name = name' ∧ us = vs := by
  have hfirst := congrArg headKind h
  rw [headKind_words_append, headKind_words_append] at hfirst
  cases sameRule_of_firstKind hfirst with
  | basic k hk => exact ⟨rfl, (List.cons.inj h).2⟩
  | unsignedChar => exact ⟨rfl, List.append_cancel_left h⟩
  | integer lexeme lexeme' =>
    obtain ⟨hword, h⟩ := List.cons.inj h
    exact ⟨congrArg integer (congrArg Token.lexeme hword), h⟩
  | path p q ds es =>
    rw [words, words, List.append_assoc, List.append_assoc] at h
    obtain ⟨rfl, hmore⟩ := PathDerivation.words_append_inj h (headKind_argsWords hus.2 ds)
      (headKind_argsWords hvs.2 es)
    obtain ⟨rfl, hrest⟩ := argsWords_append_inj hargs hmore hus.1 hvs.1
    exact ⟨rfl, hrest⟩

end NameDerivation

/-- No type use begins with a closing bracket. -/
theorem TypeDerivation.headKind_words_ne {inArgs : Bool} (d : TypeDerivation inArgs)
    (us : List Token) : headKind (d.words ++ us) ≠ .greater := by
  obtain ⟨isConst, name, sign⟩ := d
  rw [words, List.append_assoc, List.append_assoc]
  cases isConst with
  | true => exact fun he => by cases he
  | false =>
    show headKind (name.words ++ (signWords sign ++ us)) ≠ .greater
    rw [name.headKind_words_append]
    exact name.firstKind_ne (by decide)

/-- No derivation has the words of another one, unless something follows that can continue a type
use. -/
theorem TypeDerivation.isDetermined {inArgs : Bool} (d : TypeDerivation inArgs) :
    d.IsDetermined := by
  -- each part in its turn is told from the rest by the first word behind it
  induction d using TypeDerivation.induct with
  | mk isConst name sign hargs =>
    rintro ⟨isConst', name', sign'⟩ us vs h hus hvs
    rw [words, words, List.append_assoc, List.append_assoc, List.append_assoc,
      List.append_assoc] at h
    obtain ⟨rfl, hname⟩ := optionalWord_append_inj h
      (by rw [name.headKind_words_append]; exact name.firstKind_ne (by decide))
      (by rw [name'.headKind_words_append]; exact name'.firstKind_ne (by decide))
    obtain ⟨rfl, hsign⟩ := NameDerivation.words_append_inj hargs hname (hus.behindSign sign)
      (hvs.behindSign sign')
    obtain ⟨rfl, hrest⟩ := signWords_append_inj hsign hus hvs
    exact ⟨rfl, hrest⟩

/-- No words have two derivations. -/
theorem TypeDerivation.words_injective {inArgs : Bool} :
    Function.Injective (@words inArgs) := by
  intro d e h
  have hends : EndsType [] := by simp [EndsType]
  exact (d.isDetermined e [] [] (by rw [h]) hends hends).1

end TemplateIdl
