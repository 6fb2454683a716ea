import TemplateIdl.Proofs.Token.Legible
import TemplateIdl.TypeExpr.Printer

/-!
# Words of type uses

* `joinWords`, words with commas between them, and `Legible.join`, how they are read;
* `TypeExpr.WellFormed`, the type uses that can be written;
* `TypeExpr.words`, the words of a type use, with `TypeExpr.chars_words`, their text;
* `TypeExpr.legible`, a well-formed type use in front of closing brackets and other words.
-/

namespace TemplateIdl

/-! ## Words with commas between them -/

/-- Words that have no gap in front of them. -/
def Flush (ws : List Token) : Prop := ∃ w vs, ws = w :: vs ∧ w.gap = ""

theorem Flush.append {ws : List Token} (h : Flush ws) (vs : List Token) : Flush (ws ++ vs) := by
  obtain ⟨w, us, rfl, hg⟩ := h
  exact ⟨w, us ++ vs, rfl, hg⟩

theorem Flush.ne_nil {ws : List Token} (h : Flush ws) : ws ≠ [] := by
  obtain ⟨w, us, rfl, -⟩ := h
  simp

theorem Flush.lead_empty {ws : List Token} (h : Flush ws) : lead "" ws = ws := by
  obtain ⟨w, us, rfl, hg⟩ := h
  rw [lead_cons, ← hg]
  rfl

theorem flush_cons {w : Token} (h : w.gap = "") (ws : List Token) : Flush (w :: ws) :=
  ⟨w, ws, rfl, h⟩

theorem chars_lead {ws : List Token} (h : Flush ws) (g : String) :
    Token.chars (lead g ws) = g.toList ++ Token.chars ws := by
  obtain ⟨w, vs, rfl, hg⟩ := h
  simp [hg]

/-- Lists of words with a comma between them. -/
def joinWords : List (List Token) → List Token
  | [] => []
  | [ws] => ws
  | ws :: vs :: rest => ws ++ Token.sign .comma :: lead " " (joinWords (vs :: rest))

/-- What follows the first one of several lists of words with commas between them, with `us`
behind the last one. -/
def commaWords (us : List Token) : List (List Token) → List Token
  | [] => us
  | ws :: wss => Token.sign .comma :: (lead " " ws ++ commaWords us wss)

theorem commaWords_of {Q : List Token → Prop} {us : List Token}
    (hcomma : ∀ vs, Q (Token.sign .comma :: vs)) (hus : Q us) (wss : List (List Token)) :
    Q (commaWords us wss) := by
  cases wss with
  | nil => exact hus
  | cons ws wss => exact hcomma _

theorem lead_joinWords {ws : List Token} {wss : List (List Token)} (h : ∀ vs ∈ ws :: wss, vs ≠ [])
    (g : String) (us : List Token) :
    lead g (joinWords (ws :: wss)) ++ us = lead g ws ++ commaWords us wss := by
  induction wss generalizing ws g with
  | nil => rfl
  | cons vs rest ih =>
    have hrest : ∀ us ∈ vs :: rest, us ≠ [] := fun us hu => h us (List.mem_cons_of_mem ws hu)
    rw [joinWords, lead_append (h ws (by simp)), List.append_assoc, List.cons_append, ih hrest]
    rfl

theorem flush_joinWords {wss : List (List Token)} (h : ∀ ws ∈ wss, Flush ws) (hne : wss ≠ []) :
    Flush (joinWords wss) := by
  match wss, hne with
  | [ws], _ => exact h ws (by simp)
  | ws :: vs :: rest, _ => exact (h ws (by simp)).append _

theorem chars_joinWords {wss : List (List Token)} (h : ∀ ws ∈ wss, Flush ws) :
    Token.chars (joinWords wss) = [',', ' '].intercalate (wss.map Token.chars) := by
  induction wss with
  | nil => rfl
  | cons ws wss ih =>
    cases wss with
    | nil => simp [joinWords]
    | cons vs rest =>
      have hrest : ∀ us ∈ vs :: rest, Flush us := fun us hu => h us (List.mem_cons_of_mem ws hu)
      rw [joinWords, Token.chars_append, Token.chars_cons,
        chars_lead (flush_joinWords hrest (by simp)), ih hrest]
      simp only [List.map_cons, List.intercalate_cons_cons, List.append_assoc]
      rfl

theorem chars_joinWords_map {α : Type} {f : α → List Token} {g : α → String} {xs : List α}
    (h : ∀ x ∈ xs, Flush (f x) ∧ Token.chars (f x) = (g x).toList) :
    Token.chars (joinWords (xs.map f)) = (String.intercalate ", " (xs.map g)).toList := by
  have hflush : ∀ ws ∈ xs.map f, Flush ws := by
    intro ws hws
    obtain ⟨x, hx, rfl⟩ := List.mem_map.1 hws
    exact (h x hx).1
  have hmap : (xs.map f).map Token.chars = (xs.map g).map String.toList := by
    rw [List.map_map, List.map_map]
    exact List.map_congr_left fun x hx => (h x hx).2
  rw [chars_joinWords hflush, hmap, String.toList_intercalate]
  rfl

/-- A gap that a printer writes. -/
def IsGap (g : String) : Prop := ∀ d ∈ g.toList, isBlank d = true ∧ Bite.isBreak d = true

theorem isGap_empty : IsGap "" := by simp [IsGap]

theorem isGap_space : IsGap " " := by
  have hbreak : Bite.isBreak ' ' = true := by decide
  simp [IsGap, isBlank_space, hbreak]

theorem IsGap.blank {g : String} (h : IsGap g) : ∀ d ∈ g.toList, isBlank d = true :=
  fun d hd => (h d hd).1

/-- Words behind a gap that is not empty begin with a break. -/
theorem stops_lead {ws : List Token} {g : String} (h : ws ≠ []) (hg : IsGap g) (hne : g ≠ "")
    (vs : List Token) (tail : List Char) : Stops (lead g ws ++ vs) tail := by
  obtain ⟨w, us, rfl⟩ := List.exists_cons_of_ne_nil h
  obtain ⟨c, l, hl⟩ : ∃ c l, g.toList = c :: l :=
    List.exists_cons_of_ne_nil (by simpa using hne)
  exact .gap (w := w.behind g) hl (hg c (by simp [hl])).2 _ _

/-- Words with commas between them, where `Q` holds of what may follow each of them. -/
theorem Legible.join {tail : List Char} {Q : List Token → Prop} {wss : List (List Token)}
    (h : ∀ ws ∈ wss, ws ≠ [] ∧ ∀ g vs, IsGap g → Q vs → Legible (lead g ws ++ vs) tail)
    (hcomma : ∀ vs, Legible vs tail → Stops vs tail → Q (Token.sign .comma :: vs))
    {vs : List Token} (hvs : Q vs) {g : String} (hg : IsGap g) (hne : wss ≠ []) :
    Legible (lead g (joinWords wss) ++ vs) tail := by
  -- from the back: the words in front are legible because those behind them are
  induction wss generalizing g with
  | nil => exact absurd rfl hne
  | cons ws wss ih =>
    obtain ⟨hws, hread⟩ := h ws (by simp)
    cases wss with
    | nil => exact hread g vs hg hvs
    | cons us rest =>
      have hrest := ih (fun us hu => h us (List.mem_cons_of_mem ws hu)) isGap_space (by simp)
      rw [joinWords, lead_append hws, List.append_assoc, List.cons_append]
      refine hread g _ hg (hcomma _ hrest ?_)
      refine stops_lead ?_ isGap_space (by decide) _ _
      cases rest with
      | nil => exact (h us (by simp)).1
      | cons _ _ => simp [joinWords]

/-! ## Well-formed type uses -/

namespace TypeExpr

/-- The type uses that can be written: of a built-in type, of a name with namespaces and
arguments, and among template arguments of an integer. `isBasic` tells which one it is. -/
inductive WellFormed : Bool → TypeExpr → Prop
  | basic {inArgs isConst : Bool} {name : String} {sign : Option Indirection}
      (hn : name ∈ basicTypeNames) : WellFormed inArgs (.mk [] name [] isConst sign true)
  | named {inArgs isConst : Bool} {namespaces : List String} {name : String}
      {args : List TypeExpr} {sign : Option Indirection}
      (hns : ∀ n ∈ namespaces, isIdentifier n = true) (hn : isIdentifier name = true)
      (hargs : ∀ a ∈ args, WellFormed true a) :
      WellFormed inArgs (.mk namespaces name args isConst sign false)
  | integer {isConst : Bool} {name : String} {sign : Option Indirection} (hn : IsInteger name) :
      WellFormed true (.mk [] name [] isConst sign false)

end TypeExpr

/-! ## The words -/

/-- The kind of a name that is one token. -/
def nameKind (name : String) : Kind :=
  (keyword? name).getD (if isTokenText .intLiteral name then .intLiteral else .identifier)

/-- A name without namespaces. -/
def nameWords (name : String) : List Token :=
  if name = "unsigned char" then [.sign .kwUnsigned, (Token.sign .kwChar).behind " "]
  else [.word (nameKind name) name]

/-- A name behind its namespaces. -/
def pathWords : List String → String → List Token
  | [], name => nameWords name
  | ns :: rest, name => .ident ns :: .sign .colonColon :: pathWords rest name

/-- Words in angle brackets, if there are any. -/
def angledWords (wss : List (List Token)) : List Token :=
  if wss.isEmpty then [] else .sign .less :: (joinWords wss ++ [closer ""])

/-- The sign behind a name, if there is one. -/
def signWords : Option Indirection → List Token
  | some .shared => [.sign .star]
  | some .raw => [.sign .atSign]
  | some .ref => [.sign .amp]
  | none => []

/-- Words behind a keyword of kind `k`, if so told. -/
def flagWords (k : Kind) (flag : Bool) (ws : List Token) : List Token :=
  if flag then .sign k :: lead " " ws else ws

@[simp] theorem flagWords_false (k : Kind) (ws : List Token) : flagWords k false ws = ws := rfl

@[simp] theorem flagWords_true (k : Kind) (ws : List Token) :
    flagWords k true ws = .sign k :: lead " " ws := rfl

namespace TypeExpr

mutual

/-- The words of a type use. -/
def words : TypeExpr → List Token
  | mk ns name args isConst sign _ =>
    flagWords .kwConst isConst (pathWords ns name ++ angledWords (wordsList args)) ++ signWords sign

/-- The words of several type uses. -/
def wordsList : List TypeExpr → List (List Token)
  | [] => []
  | t :: ts => words t :: wordsList ts

end

@[simp] theorem wordsList_eq_map (ts : List TypeExpr) : wordsList ts = ts.map words := by
  induction ts with
  | nil => rfl
  | cons t ts ih => simp [wordsList, ih]

end TypeExpr

/-! ## The text of the words -/

theorem flush_nameWords (name : String) : Flush (nameWords name) := by
  unfold nameWords
  split
  · exact flush_cons rfl _
  · exact flush_cons rfl _

theorem flush_pathWords (namespaces : List String) (name : String) :
    Flush (pathWords namespaces name) := by
  cases namespaces with
  | nil => exact flush_nameWords name
  | cons ns rest => exact flush_cons rfl _

theorem flush_flagWords {ws : List Token} (h : Flush ws) (k : Kind) (flag : Bool) :
    Flush (flagWords k flag ws) := by
  cases flag with
  | false => exact h
  | true => exact flush_cons rfl _

theorem chars_nameWords (name : String) : Token.chars (nameWords name) = name.toList := by
  unfold nameWords
  split
  · next h => rw [h]; decide
  · simp [Token.word]

theorem chars_pathWords (namespaces : List String) (name : String) :
    Token.chars (pathWords namespaces name) = (pathText namespaces name).toList := by
  induction namespaces with
  | nil => exact chars_nameWords name
  | cons ns rest ih =>
    rw [pathWords, Token.chars_cons, Token.chars_cons, ih, pathText]
    simp [Token.ident, Token.word, Token.sign, Kind.spelling]

theorem chars_angledWords {α : Type} {f : α → List Token} {g : α → String} {xs : List α}
    (h : ∀ x ∈ xs, Flush (f x) ∧ Token.chars (f x) = (g x).toList) :
    Token.chars (angledWords (xs.map f)) = (angled (xs.map g)).toList := by
  unfold angledWords angled
  cases xs with
  | nil => rfl
  | cons x xs =>
    rw [if_neg (by simp), if_neg (by simp), Token.chars_cons, Token.chars_append,
      chars_joinWords_map h, String.toList_append, String.toList_append]
    rfl

theorem chars_signWords (sign : Option Indirection) :
    Token.chars (signWords sign) = (indirectionText sign).toList := by
  rcases sign with _ | _ | _ | _ <;> rfl

theorem chars_flagWords {ws : List Token} (h : Flush ws) {k : Kind} {text : String}
    (hk : k.spelling = some text) (flag : Bool) :
    Token.chars (flagWords k flag ws) =
      (if flag then text ++ " " else "").toList ++ Token.chars ws := by
  cases flag with
  | false => simp
  | true =>
    rw [flagWords_true, if_pos rfl, Token.chars_cons, chars_lead h]
    simp [Token.sign, Token.word, hk]

namespace TypeExpr

theorem flush_words (t : TypeExpr) : Flush t.words := by
  cases t with
  | mk ns n as c i b =>
    rw [words]
    exact (flush_flagWords ((flush_pathWords ns n).append _) .kwConst c).append _

/-- The words of a type use have its text. -/
theorem chars_words (t : TypeExpr) : Token.chars t.words = t.text.toList := by
  induction t using TypeExpr.induct with
  | mk ns n as c i b ih =>
    have hargs : Token.chars (angledWords (as.map words)) = (angled (as.map text)).toList :=
      chars_angledWords fun a ha => ⟨flush_words a, ih a ha⟩
    rw [words, text, wordsList_eq_map, texts_eq_map, Token.chars_append,
      chars_flagWords ((flush_pathWords ns n).append _) (k := .kwConst) rfl, Token.chars_append,
      chars_pathWords, hargs, chars_signWords]
    simp only [String.toList_append, List.append_assoc]
    rfl

end TypeExpr

/-! ## Legible names -/

/-- The names that a well-formed type use can have. -/
def Nameable (name : String) : Prop :=
  name ∈ basicTypeNames ∨ isIdentifier name = true ∨ IsInteger name

/-- The kinds of well-formed type uses differ in their names only: what holds of the use of such a
name whenever it holds of the arguments holds of all well-formed type uses. -/
theorem TypeExpr.WellFormed.induct_mk {motive : TypeExpr → Prop}
    (hmk : ∀ ns name as c i b, (∀ n ∈ ns, isIdentifier n = true) → Nameable name →
      (∀ a ∈ as, a.WellFormed true) → (∀ a ∈ as, motive a) → motive (.mk ns name as c i b))
    {inArgs : Bool} {t : TypeExpr} (h : t.WellFormed inArgs) : motive t := by
  induction h with
  | basic hn => exact hmk _ _ _ _ _ _ (by simp) (.inl hn) (by simp) (by simp)
  | named hns hn hargs ih => exact hmk _ _ _ _ _ _ hns (.inr (.inl hn)) hargs ih
  | integer hn => exact hmk _ _ _ _ _ _ (by simp) (.inr (.inr hn)) (by simp) (by simp)

theorem TypeExpr.WellFormed.args {inArgs : Bool} {t : TypeExpr} (h : t.WellFormed inArgs) :
    ∀ a ∈ t.args, a.WellFormed true := by
  refine h.induct_mk (motive := fun t => ∀ a ∈ t.args, a.WellFormed true) ?_
  intro ns name as c i b _ _ hargs _
  exact hargs

theorem head_of_isIdentifier {s : String} (h : isIdentifier s = true) :
    ∃ c l, s.toList = c :: l ∧ Bite.isWordStart c = true := by
  simp only [isIdentifier, Bool.and_eq_true] at h
  obtain ⟨c, hc, hw⟩ := (Option.any_eq_true _ _).1 h.1.1
  obtain ⟨l, hl⟩ := List.head?_eq_some_iff.1 hc
  exact ⟨c, l, hl, hw⟩

theorem Nameable.head {name : String} (h : Nameable name) :
    ∃ c l, name.toList = c :: l ∧ (Bite.isWordStart c = true ∨ c.isDigit = true) := by
  rcases h with h | h | h
  · have hall : ∀ n ∈ basicTypeNames, n.toList.head?.any Bite.isWordStart = true := by decide
    obtain ⟨c, hc, hw⟩ := (Option.any_eq_true _ _).1 (hall name h)
    obtain ⟨l, hl⟩ := List.head?_eq_some_iff.1 hc
    exact ⟨c, l, hl, .inl hw⟩
  · obtain ⟨c, l, hl, hw⟩ := head_of_isIdentifier h
    exact ⟨c, l, hl, .inl hw⟩
  · obtain ⟨c, l, hl, hd⟩ := head_of_integer (isInteger_iff.1 h)
    exact ⟨c, l, hl, .inr hd⟩

theorem isTokenText_unique {k k' : Kind} {s : String} (h : isTokenText k s = true)
    (h' : isTokenText k' s = true) : k = k' := by
  obtain ⟨c, l, hs, hf⟩ := isTokenText_iff.1 h
  obtain ⟨c', l', hs', hf'⟩ := isTokenText_iff.1 h'
  obtain ⟨rfl, rfl⟩ := List.cons.inj (hs.symm.trans hs')
  rw [hf] at hf'
  simpa using hf'

theorem nameKind_of_isTokenText {name : String} {k : Kind} (h : isTokenText k name = true)
    (hk : k = .identifier ∨ k = .intLiteral) : nameKind name = k := by
  unfold nameKind
  rcases hkw : keyword? name with _ | k'
  · rw [Option.getD_none]
    rcases hk with rfl | rfl
    · rw [if_neg]
      intro hint
      cases isTokenText_unique h hint
    · rw [if_pos h]
  · obtain ⟨-, hs⟩ := keyword?_eq_some hkw
    rw [Option.getD_some]
    exact isTokenText_unique (isTokenText_spelling hs) h

theorem Nameable.isTokenText {name : String} (h : Nameable name) (hne : name ≠ "unsigned char") :
    isTokenText (nameKind name) name = true := by
  rcases h with h | h | h
  · have hall : ∀ n ∈ basicTypeNames, n = "unsigned char" ∨ TemplateIdl.isTokenText (nameKind n) n = true := by
      decide
    exact (hall name h).resolve_left hne
  · have ht := isTokenText_identifier.2 h
    rwa [nameKind_of_isTokenText ht (by simp)]
  · have ht := isInteger_iff.1 h
    rwa [nameKind_of_isTokenText ht (by simp)]

theorem glued_of_head {c d : Char} {l : List Char}
    (hc : Bite.isWordStart c = true ∨ c.isDigit = true) (hd : Bite.isNumberChar d = false) :
    Bite.glued (c :: l) d = false := by
  have hw : Bite.isWordChar d = false := by
    simp only [Bite.isNumberChar, Bool.or_eq_false_iff] at hd
    exact hd.1.1.1
  rcases hc with hc | hc
  · simp [Bite.glued, hc, hw]
  · simp [Bite.glued, hc, hw, hd]

/-- A name in front of a character that numbers do not go on with. -/
theorem Legible.name {name : String} (h : Nameable name) {ws : List Token} {tail : List Char}
    (hs : Starts (fun d => Bite.isNumberChar d = false) ws tail) (hl : Legible ws tail) {g : String}
    (hg : IsGap g) : Legible (lead g (nameWords name) ++ ws) tail := by
  obtain ⟨c, l, hname, hc⟩ := h.head
  unfold nameWords
  split
  · -- the one name of two words
    have hchar : (Token.sign .kwChar).Proper := Token.sign_proper rfl
    have hunsigned : (Token.sign .kwUnsigned).Proper := Token.sign_proper rfl
    have hrest : Legible ((Token.sign .kwChar).behind " " :: ws) tail := by
      refine hl.cons hchar isGap_space.blank ?_
      exact hs.mono fun d hd => glued_of_head (c := 'c') (by decide) hd
    exact hrest.cons_of_stops hunsigned hg.blank (.gap (c := ' ') (l := []) rfl (by decide) _ _)
  · next hne =>
    have hword : (Token.word (nameKind name) name).Proper := h.isTokenText hne
    refine hl.cons hword hg.blank ?_
    rw [Token.lexeme_behind, Token.lexeme_word, hname]
    exact hs.mono fun d hd => glued_of_head hc hd

theorem continuesSymbol_of_isWordChar {d : Char} (h : Bite.isWordChar d = true) :
    Bite.continuesSymbol d = false := by
  have hall : ∀ s ∈ Kind.symbols, s.1.tail.all (fun e => !Bite.isWordChar e) = true := by decide
  rw [Bite.continuesSymbol, List.any_eq_false]
  intro s hs hd
  have hno := List.all_eq_true.1 (hall s hs) d (List.contains_iff_mem.1 hd)
  rw [h] at hno
  cases hno

/-- No sign but the point goes on with a character of a word. -/
theorem glued_sign_of_isWordChar {c d : Char} {l : List Char} (h : Bite.isWordChar d = true)
    (hc : Bite.isWordStart c = false ∧ c.isDigit = false ∧ c ≠ '.') :
    Bite.glued (c :: l) d = false := by
  have hd : d ≠ '/' ∧ d ≠ '*' := by
    constructor <;> (rintro rfl; revert h; decide)
  have he : Bite.extendsSymbol (c :: l) d = false :=
    Bite.extendsSymbol_eq_false (by simp) (continuesSymbol_of_isWordChar h) hd
      (.inl fun he => hc.2.2 (List.cons.inj he).1)
  simp [Bite.glued, hc, he]

theorem isWordChar_of_head {c : Char} (h : Bite.isWordStart c = true ∨ c.isDigit = true) :
    Bite.isWordChar c = true := by
  rcases h with h | h
  · exact Bite.isWordChar_of_isWordStart h
  · simp [Bite.isWordChar, Char.isAlphanum, h]

theorem starts_nameWords {name : String} (h : Nameable name) (ws : List Token)
    (tail : List Char) : Starts (fun d => Bite.isWordChar d = true) (nameWords name ++ ws) tail := by
  obtain ⟨c, l, hname, hc⟩ := h.head
  unfold nameWords
  split
  · exact .lexeme (c := 'u') (l := "nsigned".toList) rfl (by decide) (by decide) _ _
  · exact .lexeme (w := .word (nameKind name) name) rfl hname (isWordChar_of_head hc) _ _

theorem starts_pathWords {namespaces : List String} {name : String}
    (hns : ∀ n ∈ namespaces, isIdentifier n = true) (h : Nameable name) (ws : List Token)
    (tail : List Char) :
    Starts (fun d => Bite.isWordChar d = true) (pathWords namespaces name ++ ws) tail := by
  cases namespaces with
  | nil => exact starts_nameWords h ws tail
  | cons ns rest =>
    obtain ⟨c, l, hc, hw⟩ := head_of_isIdentifier (hns ns (by simp))
    exact .lexeme (w := .ident ns) rfl hc (Bite.isWordChar_of_isWordStart hw) _ _

/-- A name behind its namespaces. -/
theorem Legible.path {namespaces : List String} {name : String}
    (hns : ∀ n ∈ namespaces, isIdentifier n = true) (h : Nameable name) {ws : List Token}
    {tail : List Char} (hs : Starts (fun d => Bite.isNumberChar d = false) ws tail)
    (hl : Legible ws tail) {g : String} (hg : IsGap g) :
    Legible (lead g (pathWords namespaces name) ++ ws) tail := by
  induction namespaces generalizing g with
  | nil => exact hl.name h hs hg
  | cons ns rest ih =>
    have hident : (Token.ident ns).Proper := Token.ident_proper (hns ns (by simp))
    have hcolons : (Token.sign .colonColon).Proper := Token.sign_proper rfl
    have hrest : Legible (pathWords rest name ++ ws) tail := by
      have hgap := ih (fun n hn => hns n (List.mem_cons_of_mem ns hn)) isGap_empty
      rwa [(flush_pathWords rest name).lead_empty] at hgap
    have hword : Starts (fun d => Bite.glued [':', ':'] d = false) (pathWords rest name ++ ws)
        tail := by
      refine (starts_pathWords (fun n hn => hns n (List.mem_cons_of_mem ns hn)) h ws tail).mono ?_
      exact fun d hd => glued_sign_of_isWordChar hd (by decide)
    have hsep : Legible (.sign .colonColon :: (pathWords rest name ++ ws)) tail :=
      hrest.cons hcolons (by simp [Token.sign]) hword
    refine hsep.cons hident hg.blank ?_
    -- a colon is no character of a word
    obtain ⟨c, l, hc, hw⟩ := head_of_isIdentifier (hns ns (by simp))
    exact .lexeme (c := ':') (l := [':']) rfl rfl
      (by
        rw [Token.lexeme_behind, Token.ident, Token.lexeme_word, hc]
        exact glued_of_head (.inl hw) (by decide)) _ _

/-! ## Legible type uses -/

/-- What may stand behind `n` closing brackets that stand behind a type use: behind a bracket the
sign of an outer type use may follow. -/
def Follows (n : Nat) (ws : List Token) (tail : List Char) : Prop :=
  Starts (fun d => Bite.isBreak d = true ∨ (0 < n ∧ (d = '*' ∨ d = '&'))) ws tail

theorem not_isNumberChar_of_isBreak {d : Char} (h : Bite.isBreak d = true) :
    Bite.isNumberChar d = false :=
  (Bite.isBreak_iff.1 h).1

theorem Legible.follows {n : Nat} {ws : List Token} {tail : List Char} (hf : Follows n ws tail)
    (hl : Legible ws tail) : Legible (List.replicate n (closer "") ++ ws) tail := by
  refine hl.closers n (hf.mono fun d hd => ?_)
  -- neither a break nor the sign of an outer type use makes a longer sign of a bracket
  rcases hd with hd | ⟨-, rfl | rfl⟩
  · constructor <;> (rintro rfl; revert hd; decide)
  · decide
  · decide

theorem starts_follows {n : Nat} {ws : List Token} {tail : List Char} (hf : Follows n ws tail) :
    Starts (fun d => Bite.isBreak d = true ∨ d = '>') (List.replicate n (closer "") ++ ws) tail := by
  refine starts_closers n (fun _ => .inr rfl) fun hn => hf.mono fun d hd => ?_
  rcases hd with hd | ⟨hpos, -⟩
  · exact .inl hd
  · omega

/-- The sign of a type use in front of closing brackets. -/
theorem Legible.indirection {n : Nat} {ws : List Token} {tail : List Char}
    (hf : Follows n ws tail) (hl : Legible ws tail) (sign : Option Indirection) :
    Legible (signWords sign ++ (List.replicate n (closer "") ++ ws)) tail := by
  have hrest := hl.follows hf
  have hsign : ∀ k : Kind, k.spelling.isSome = true →
      Bite.glued (Token.sign k).lexeme.toList '>' = false →
      Legible (Token.sign k :: (List.replicate n (closer "") ++ ws)) tail := by
    intro k hk hglue
    refine hrest.cons (Token.sign_proper hk) (by simp [Token.sign]) ?_
    refine (starts_follows hf).mono fun d hd => ?_
    rcases hd with hd | rfl
    · exact Bite.glued_of_isBreak hd _
    · exact hglue
  rcases sign with _ | _ | _ | _
  · exact hrest
  · exact hsign .star rfl (by decide)
  · exact hsign .atSign rfl (by decide)
  · exact hsign .amp rfl (by decide)

theorem starts_indirection {n : Nat} {ws : List Token} {tail : List Char}
    (hf : Follows n ws tail) (sign : Option Indirection) :
    Starts (fun d => Bite.isNumberChar d = false)
      (signWords sign ++ (List.replicate n (closer "") ++ ws)) tail := by
  rcases sign with _ | _ | _ | _
  · refine (starts_follows hf).mono fun d hd => ?_
    rcases hd with hd | rfl
    · exact not_isNumberChar_of_isBreak hd
    · decide
  · exact .lexeme (c := '*') (l := []) rfl rfl (by decide) _ _
  · exact .lexeme (c := '@') (l := []) rfl rfl (by decide) _ _
  · exact .lexeme (c := '&') (l := []) rfl rfl (by decide) _ _

/-- A name with the words `angled` behind it and perhaps `const` in front of it. -/
theorem Legible.constPath {namespaces : List String} {name : String}
    (hns : ∀ n ∈ namespaces, isIdentifier n = true) (h : Nameable name) {angled ws : List Token}
    {tail : List Char}
    (hs : Starts (fun d => Bite.isNumberChar d = false) (angled ++ ws) tail)
    (hl : Legible (angled ++ ws) tail) (isConst : Bool) {g : String} (hg : IsGap g) :
    Legible (lead g (flagWords .kwConst isConst (pathWords namespaces name ++ angled)) ++ ws) tail := by
  have hne := (flush_pathWords namespaces name).ne_nil
  cases isConst with
  | false =>
    rw [flagWords_false, lead_append hne, List.append_assoc]
    exact Legible.path hns h hs hl hg
  | true =>
    have hpath := Legible.path hns h hs hl isGap_space
    have hconst : (Token.sign .kwConst).Proper := Token.sign_proper rfl
    rw [flagWords_true, lead_cons, List.cons_append, lead_append hne, List.append_assoc]
    exact hpath.cons_of_stops hconst hg.blank (stops_lead hne isGap_space (by decide) _ _)

/-- The closing bracket of a type use in front of its sign and of closing brackets: these are
closing brackets in front of something that can follow them. -/
theorem follows_closer {n : Nat} {vs : List Token} {tail : List Char} (hf : Follows n vs tail)
    (hl : Legible vs tail) {sign : Option Indirection}
    (hsign : Legible (signWords sign ++ (List.replicate n (closer "") ++ vs)) tail) :
    ∃ m us, closer "" :: (signWords sign ++ (List.replicate n (closer "") ++ vs)) =
      List.replicate m (closer "") ++ us ∧ Legible us tail ∧ Follows m us tail := by
  rcases sign with _ | _ | _ | _
  · refine ⟨n + 1, vs, rfl, hl, hf.mono fun d hd => hd.imp_right fun hd => ⟨by omega, hd.2⟩⟩
  · exact ⟨1, _, rfl, hsign, .lexeme (c := '*') (l := []) rfl rfl (.inr (by decide)) _ _⟩
  · exact ⟨1, _, rfl, hsign, .lexeme (c := '@') (l := []) rfl rfl (.inl (by decide)) _ _⟩
  · exact ⟨1, _, rfl, hsign, .lexeme (c := '&') (l := []) rfl rfl (.inr (by decide)) _ _⟩

/-- Words in angle brackets in front of the sign of the type use that they belong to, where each
list of words can be followed by closing brackets. -/
theorem Legible.angled {wss : List (List Token)} {tail : List Char}
    (hflush : ∀ ws ∈ wss, Flush ws)
    (hstart : ∀ ws ∈ wss, ∀ vs, Starts (fun d => Bite.isWordChar d = true) (ws ++ vs) tail)
    (hread : ∀ ws ∈ wss, ∀ g n vs, IsGap g → Legible vs tail → Follows n vs tail →
      Legible (lead g ws ++ (List.replicate n (closer "") ++ vs)) tail)
    {n : Nat} {vs : List Token} (hf : Follows n vs tail) (hl : Legible vs tail)
    (sign : Option Indirection) :
    Legible (angledWords wss ++ (signWords sign ++ (List.replicate n (closer "") ++ vs))) tail ∧
      Starts (fun d => Bite.isNumberChar d = false)
        (angledWords wss ++ (signWords sign ++ (List.replicate n (closer "") ++ vs))) tail := by
  have hsign := Legible.indirection hf hl sign
  by_cases hne : wss = []
  · subst hne
    exact ⟨hsign, starts_indirection hf sign⟩
  · have hwords : angledWords wss ++ (signWords sign ++ (List.replicate n (closer "") ++ vs)) =
        .sign .less :: (joinWords wss ++
          closer "" :: (signWords sign ++ (List.replicate n (closer "") ++ vs))) := by
      rw [angledWords, if_neg (by simpa using hne)]
      simp
    -- what may stand behind each of the words: closing brackets, of which the last words have one
    have hjoin := Legible.join (g := "")
      (Q := fun vs => ∃ m us, vs = List.replicate m (closer "") ++ us ∧ Legible us tail ∧
        Follows m us tail)
      (fun ws hws => ⟨(hflush ws hws).ne_nil, fun g vs hg ⟨m, us, he, hus, hfus⟩ =>
        he ▸ hread ws hws g m us hg hus hfus⟩)
      (fun us hus hstop => ⟨0, .sign .comma :: us, rfl,
        hus.cons_of_stops (Token.sign_proper rfl) (by simp [Token.sign]) hstop,
        .lexeme (c := ',') (l := []) rfl rfl (.inl (by decide)) _ _⟩)
      (follows_closer hf hl hsign) isGap_empty hne
    rw [(flush_joinWords hflush hne).lead_empty] at hjoin
    rw [hwords]
    refine ⟨hjoin.cons (Token.sign_proper rfl) (by simp [Token.sign]) ?_, ?_⟩
    · refine Starts.mono ?_ fun d hd => glued_sign_of_isWordChar (c := '<') (l := []) hd (by decide)
      obtain ⟨ws, rest, rfl⟩ := List.exists_cons_of_ne_nil hne
      rcases rest with _ | ⟨us, rest⟩
      · exact hstart ws (by simp) _
      · rw [joinWords, List.append_assoc]
        exact hstart ws (by simp) _
    · exact .lexeme (c := '<') (l := []) rfl rfl (by decide) _ _

theorem TypeExpr.starts_words {inArgs : Bool} {t : TypeExpr} (h : t.WellFormed inArgs)
    (ws : List Token) (tail : List Char) :
    Starts (fun d => Bite.isWordChar d = true) (t.words ++ ws) tail := by
  refine h.induct_mk
    (motive := fun t => Starts (fun d => Bite.isWordChar d = true) (t.words ++ ws) tail) ?_
  intro ns name as c i b hns hn _ _
  rw [words]
  cases c with
  | true => exact .lexeme (c := 'c') (l := "onst".toList) rfl (by decide) (by decide) _ _
  | false =>
    simp only [flagWords_false, List.append_assoc]
    exact starts_pathWords hns hn _ tail

/-- A well-formed type use in front of closing brackets and other words. -/
theorem TypeExpr.legible {inArgs : Bool} {t : TypeExpr} (h : t.WellFormed inArgs) {n : Nat}
    {ws : List Token} {tail : List Char} (hf : Follows n ws tail) (hl : Legible ws tail)
    {g : String} (hg : IsGap g) :
    Legible (lead g t.words ++ (List.replicate n (closer "") ++ ws)) tail := by
  -- an argument is followed by the brackets of all the type uses around it, so the claim is made
  -- for any number of brackets
  have hall : ∀ (n : Nat) (ws : List Token) (g : String), Follows n ws tail → Legible ws tail →
      IsGap g → Legible (lead g t.words ++ (List.replicate n (closer "") ++ ws)) tail := by
    refine h.induct_mk (motive := fun t => ∀ (n : Nat) (ws : List Token) (g : String),
      Follows n ws tail → Legible ws tail → IsGap g →
        Legible (lead g t.words ++ (List.replicate n (closer "") ++ ws)) tail) ?_
    intro ns name as c i b hns hn hargs ih n ws g hf hl hg
    have hangled := @Legible.angled (as.map words) tail ?_ ?_ ?_ n ws hf hl i
    · have hne := (flush_flagWords ((flush_pathWords ns name).append
        (angledWords (as.map words))) .kwConst c).ne_nil
      rw [words, wordsList_eq_map, lead_append hne, List.append_assoc]
      exact Legible.constPath hns hn hangled.2 hangled.1 c hg
    · intro vs hvs
      obtain ⟨a, -, rfl⟩ := List.mem_map.1 hvs
      exact flush_words a
    · intro vs hvs us
      obtain ⟨a, ha, rfl⟩ := List.mem_map.1 hvs
      exact starts_words (hargs a ha) us tail
    · intro vs hvs g n us hg hus hfus
      obtain ⟨a, ha, rfl⟩ := List.mem_map.1 hvs
      exact ih a ha n us g hfus hus hg
  exact hall n ws g hf hl hg

end TemplateIdl
