import TemplateIdl.Proofs.Grammar.Extent
import TemplateIdl.Proofs.Grammar.Inclusion
import TemplateIdl.Proofs.Token.Spaced

/-!
# Directive — include directives that are printed and read again

A path in brackets has no closing bracket, and a path in quotes has no quote. All directives are
printed with brackets, so a path with a closing bracket, which was written in quotes, is not read
from its text again.

* `inclusion_of_token`, the path that is read from a directive of a text;
* `IsDirectiveOf`, the text of one directive that names a path, and
  `isDirectiveOf_inclusionText_iff`, when a printed directive does;
* `Lexed.inclusion_roundTrip`, both together for the directives of a text, and
  `Lexed.not_forall_isDirectiveOf`, a directive whose text names another path or none.
-/

namespace TemplateIdl

/-! ## Directives of a text -/

/-- The path that is read from a directive. One with a closing bracket was written in quotes. -/
theorem inclusion_of_token {t : Token} (hp : t.Proper) (hk : t.kind = .includeDirective)
    {s : TokenStream} (hs : s.peek = t) :
    ∃ d, Parse.inclusion s = .ok d s.advance ∧ d.span = t.span ∧ IsIncludePath d.path ∧
      ('>' ∈ d.path.toList → t.lexeme.toList.getLast? = some '"') := by
  rw [Token.Proper, hk] at hp
  obtain ⟨c, l, hl, hf⟩ := isTokenText_iff.1 hp
  obtain ⟨blanks, inner, opening, close, hchars, hblanks, hclose, -, -, hstop⟩ :=
    Bite.directive_eq (Bite.first_directive hf)
  rw [← hl] at hchars
  have hpath : includePath? t.lexeme.toList = some (trim inner) := by
    rw [hchars, includePath?_eq hblanks hclose]
  refine ⟨⟨String.ofList (trim inner), t.span⟩, ?_, rfl, isIncludePath_of_includePath? hp hpath, ?_⟩
  · rw [Parse.inclusion_eq_ok, hs]
    exact ⟨hk, trim inner, hpath, rfl, rfl⟩
  · intro hmem
    rw [String.toList_ofList] at hmem
    have hinner : '>' ∈ inner := trim_subset inner hmem
    rcases (not_isBlank_of_pathClose? hclose).2 with ⟨-, rfl⟩ | ⟨-, rfl⟩
    · exact absurd hinner hstop
    · have hlast : t.lexeme.toList = Bite.includeWord ++ (blanks ++ opening :: inner) ++ ['"'] := by
        simp [hchars]
      rw [hlast, List.getLast?_concat]

/-- The path that has been read from a directive. -/
theorem path_of_inclusion {t stop : Token} {ts : List Token} {d : IncludeDecl} {s' : TokenStream}
    (h : Parse.inclusion ⟨[], t :: ts, stop⟩ = .ok d s') {path : String}
    (hpath : includePath? t.lexeme.toList = some path.toList) : d.path = path := by
  obtain ⟨-, inner, hinner, rfl, -⟩ := Parse.inclusion_eq_ok.1 h
  have hpeek : (TokenStream.mk [] (t :: ts) stop).peek = t := rfl
  rw [hpeek, hpath] at hinner
  cases hinner
  exact String.ofList_toList

/-! ## Printed directives -/

/-- The text is a single include directive, in which the path is read. -/
def IsDirectiveOf (path text : String) : Prop :=
  (Lexed.ofSource text).errors = [] ∧
    ∃ t, (Lexed.ofSource text).tokens = [t] ∧ t.kind = .includeDirective ∧
      ∃ d s', Parse.inclusion (.ofLexed (Lexed.ofSource text)) = .ok d s' ∧ d.path = path

/-- What is scanned at a number sign is scanned as a directive. -/
theorem directive_of_scan {cs rest : List Char} {p : Piece}
    (h : Piece.scan ('#' :: cs) = some (p, rest)) :
    Bite.directive ('#' :: cs) = ⟨p.kind, p.body, rest⟩ := by
  obtain ⟨c, l, r, hs, hl, hf⟩ := scan_eq_some h
  have hsplit : splitBlank ('#' :: cs) = ([], '#' :: cs) :=
    splitBlank_blanks (b := []) (by simp) (by decide)
  obtain ⟨rfl, rfl⟩ := List.cons.inj (Prod.mk.inj (hsplit.symm.trans hs)).2
  have hfirst : Bite.first '#' cs = Bite.directive ('#' :: cs) := by
    rw [Bite.first, if_neg (by simp), if_neg (by simp), if_neg (by simp), if_pos rfl]
  rw [← hfirst, hf, hl]

/-- A text that begins with a number sign begins with a directive. -/
theorem Lexes.directive {cs : List Char} {t : Token} {ts : List Token}
    (h : Lexes ('#' :: cs) (t :: ts)) :
    ∃ r, Bite.directive ('#' :: cs) = ⟨.token t.kind, t.lexeme.toList, r⟩ := by
  rcases h with _ | ⟨hscan, hk, -⟩ | ⟨hscan, hk, -⟩
  · have hbite := congrArg Bite.kind (directive_of_scan hscan)
    exact absurd (hbite.trans hk) (Bite.directive_kind _)
  · have hbite := directive_of_scan hscan
    rw [hk] at hbite
    exact ⟨_, by rw [hbite, String.toList_ofList]⟩

/-- From a printed directive its path is read, if it is read as one at all, up to the first closing
bracket. -/
theorem not_mem_of_isDirectiveOf {path path' : String}
    (h : IsDirectiveOf path' ("#include <" ++ path ++ ">")) : '>' ∉ path'.toList := by
  obtain ⟨herrors, t, ht, hk, d, s', hd, rfl⟩ := h
  have hlexes := (lexes_iff_ofSource _ _).2 ⟨herrors, rfl⟩
  rw [ht, List.map_singleton, toList_inclusionText] at hlexes
  obtain ⟨r, hr⟩ := Lexes.directive hlexes
  have hdirective := Bite.directive_inclusion (path.toList ++ ['>'])
  obtain ⟨inner, hl, -, -, hstop⟩ := Bite.includePath_eq (hdirective.symm.trans hr)
  -- the rule reads what the scanner has taken for the path
  have hpeek := peek_ofSource herrors ht
  obtain ⟨-, inner', hinner', rfl, -⟩ := Parse.inclusion_eq_ok.1 hd
  have hchars : t.lexeme.toList = Bite.includeWord ++ ([' '] ++ '<' :: (inner ++ ['>'])) := by
    have hbare : t.bare.lexeme = t.lexeme := rfl
    rw [← hbare, hl]
    simp
  rw [hpeek, hchars, includePath?_eq (by simp [Bite.isSpaceOrTab]) rfl] at hinner'
  cases hinner'
  rw [String.toList_ofList]
  exact fun hmem => hstop (trim_subset inner hmem)

/-- A directive names the path that it is printed with, unless the path has a closing bracket. -/
theorem isDirectiveOf_inclusionText_iff {path : String} (h : IsIncludePath path) :
    IsDirectiveOf path ("#include <" ++ path ++ ">") ↔ '>' ∉ path.toList := by
  refine ⟨not_mem_of_isDirectiveOf, fun hclose => ?_⟩
  have htoken := isTokenText_inclusion h hclose
  obtain ⟨herrors, t, ht, hk, hl⟩ := ofSource_of_isTokenText htoken
  have hread : Parse.inclusion (.ofLexed (Lexed.ofSource ("#include <" ++ path ++ ">"))) =
      .ok ⟨path, t.span⟩ (.advance (.ofLexed (Lexed.ofSource ("#include <" ++ path ++ ">")))) := by
    rw [Parse.inclusion_eq_ok, peek_ofSource herrors ht, hl, includePath?_inclusion h]
    exact ⟨hk, path.toList, rfl, by rw [String.ofList_toList], rfl⟩
  exact ⟨herrors, t, ht, hk, _, _, hread, rfl⟩

namespace Lexed

/-- **Directives are printed with brackets.** From a directive of a text without faults a path is
read that is not empty and has no blanks at its ends. The text of what is read is a single directive
of the same path exactly if there is no closing bracket in the path; where there is one, the
directive was written in quotes. -/
theorem inclusion_roundTrip {source : String} (h : (ofSource source).errors = []) {t : Token}
    (ht : t ∈ (ofSource source).tokens) (hk : t.kind = .includeDirective) {s : TokenStream}
    (hs : s.peek = t) :
    ∃ d, Parse.inclusion s = .ok d s.advance ∧ d.span = t.span ∧ d.path ≠ "" ∧
      trim d.path.toList = d.path.toList ∧
      (IsDirectiveOf d.path d.text ↔ '>' ∉ d.path.toList) ∧
      ('>' ∈ d.path.toList → t.lexeme.toList.getLast? = some '"') := by
  have hproper : t.Proper :=
    ((lexes_iff_ofSource source _).2 ⟨h, rfl⟩).proper t.bare (List.mem_map_of_mem ht)
  obtain ⟨d, hd, hspan, hpath, hquote⟩ := inclusion_of_token hproper hk hs
  refine ⟨d, hd, hspan, ?_, hpath.trimmed, isDirectiveOf_inclusionText_iff hpath, hquote⟩
  intro hempty
  exact hpath.ne_nil (by rw [hempty]; rfl)

/-- A path in brackets with blanks at its ends, and one in quotes with what would end it and begin a
comment in brackets. -/
def bothForms : String := "#include < a.h\u3000>\n#include \"b>//c\""

/-- The one path is printed as a directive of its own. The other one is not, although it is printed
as a single directive, too. -/
theorem bothForms_roundTrip : ∃ t u d e,
    (ofSource bothForms).errors = [] ∧ (ofSource bothForms).tokens = [t, u] ∧
    Parse.inclusion ⟨[], [t], default⟩ = .ok d ⟨[t], [], default⟩ ∧ d.path = "a.h" ∧
    IsDirectiveOf d.path d.text ∧
    Parse.inclusion ⟨[], [u], default⟩ = .ok e ⟨[u], [], default⟩ ∧ e.path = "b>//c" ∧
    ¬ IsDirectiveOf e.path e.text ∧ u.lexeme.toList.getLast? = some '"' := by
  have herrors : (ofSource bothForms).errors = [] := by decide +kernel
  have hreadings : (ofSource bothForms).tokens.map Token.reading =
      [(.includeDirective, "#include < a.h\u3000>"),
        (.includeDirective, "#include \"b>//c\"")] := by decide +kernel
  obtain ⟨t, ts, htokens, ht, hts⟩ := List.map_eq_cons_iff.1 hreadings
  obtain ⟨u, us, rfl, hu, hus⟩ := List.map_eq_cons_iff.1 hts
  obtain rfl := List.map_eq_nil_iff.1 hus
  obtain ⟨htk, htl⟩ := Prod.mk.inj ht
  obtain ⟨huk, hul⟩ := Prod.mk.inj hu
  obtain ⟨d, hd, -, -, -, hdirective, -⟩ := inclusion_roundTrip herrors (t := t)
    (by simp [htokens]) htk (s := ⟨[], [t], default⟩) rfl
  obtain ⟨e, he, -, -, -, hdirective', hquote⟩ := inclusion_roundTrip herrors (t := u)
    (by simp [htokens]) huk (s := ⟨[], [u], default⟩) rfl
  have hpath : d.path = "a.h" := by
    have hcut : includePath? "#include < a.h\u3000>".toList = some "a.h".toList := by
      decide +kernel
    exact path_of_inclusion hd (htl ▸ hcut)
  have hpath' : e.path = "b>//c" := by
    have hcut : includePath? "#include \"b>//c\"".toList = some "b>//c".toList := by
      decide +kernel
    exact path_of_inclusion he (hul ▸ hcut)
  refine ⟨t, u, d, e, herrors, htokens, hd, hpath, hdirective.2 ?_, he, hpath', ?_, hquote ?_⟩
  · rw [hpath]
    decide
  · rw [hdirective', hpath']
    decide
  · rw [hpath']
    decide

/-- The text of what is read from a directive need not be a directive of its path. -/
theorem not_forall_isDirectiveOf : ¬ ∀ (source : String), (ofSource source).errors = [] →
    ∀ t ∈ (ofSource source).tokens, t.kind = .includeDirective →
      ∀ s : TokenStream, s.peek = t → ∃ d, Parse.inclusion s = .ok d s.advance ∧ d.path ≠ "" ∧
        trim d.path.toList = d.path.toList ∧ IsDirectiveOf d.path d.text := by
  intro h
  have hreadings : (ofSource "#include \"a>b\"").tokens.map Token.reading =
      [(.includeDirective, "#include \"a>b\"")] := by decide +kernel
  obtain ⟨t, ts, htokens, ht, -⟩ := List.map_eq_cons_iff.1 hreadings
  obtain ⟨hk, hl⟩ := Prod.mk.inj ht
  have herrors : (ofSource "#include \"a>b\"").errors = [] := by decide +kernel
  have hmem : t ∈ (ofSource "#include \"a>b\"").tokens := by rw [htokens]; exact List.mem_cons_self
  obtain ⟨d, hd, -, -, hdirective⟩ := h _ herrors t hmem hk ⟨[], [t], default⟩ rfl
  have hcut : includePath? "#include \"a>b\"".toList = some "a>b".toList := by decide +kernel
  have hclose := not_mem_of_isDirectiveOf hdirective
  rw [path_of_inclusion hd (hl ▸ hcut)] at hclose
  exact hclose (by decide)

end Lexed

end TemplateIdl
