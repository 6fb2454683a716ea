import TemplateIdl.Proofs.Decl.FileImage
import TemplateIdl.Proofs.Decl.Local

/-!
# Slice — a declaration is read again from its own text

* `Matching.forget`, all places mean the same, and `Matching.parallel_of_lead`, so tokens are
  parallel to themselves in another text;
* `Content.Has.names`, the namespaces around a declaration have names;
* `Interface.parse_slice`, the text at the place of a declaration is read as that declaration,
  without the namespaces around it.
-/

namespace TemplateIdl

open TokenStream

/-- All places mean the same. -/
def Matching.forget : Matching := ⟨fun _ => default, fun _ => default, fun _ _ => rfl⟩

/-- The same tokens in another text. -/
theorem Matching.parallel_of_bare {xs us : List Token} (h : us.map Token.bare = xs.map Token.bare) :
    Matching.forget.Parallel xs us ∧ xs.map Token.gap = us.map Token.gap := by
  induction xs generalizing us with
  | nil =>
    rw [List.map_eq_nil_iff.1 h]
    exact ⟨⟨.nil, rfl⟩, rfl⟩
  | cons x xs ih =>
    obtain ⟨u, us, rfl, hu, hus⟩ := List.map_eq_cons_iff.1 h
    obtain ⟨hk, hl, hg⟩ := Token.bare_eq_iff.1 hu
    obtain ⟨hparallel, hgaps⟩ := ih hus
    have htwin : Matching.forget.Twin x u := ⟨⟨hk.symm, hl.symm, rfl⟩, fun _ => ⟨rfl, rfl⟩⟩
    exact ⟨Parallel.cons_iff.2 ⟨htwin, hparallel, hgaps⟩, by rw [List.map_cons, hgaps, ← hg]; rfl⟩

/-- The same tokens in another text, with another gap in front of the first one. -/
theorem Matching.parallel_of_lead {g : String} {xs us : List Token}
    (h : us.map Token.bare = lead g (xs.map Token.bare)) : Matching.forget.Parallel xs us := by
  cases xs with
  | nil =>
    rw [List.map_eq_nil_iff.1 h]
    exact ⟨.nil, rfl⟩
  | cons x xs =>
    obtain ⟨u, us, rfl, hu, hus⟩ := List.map_eq_cons_iff.1 h
    have hk := congrArg Token.kind hu
    have hl := congrArg Token.lexeme hu
    have htwin : Matching.forget.Twin x u := ⟨⟨hk.symm, hl.symm, rfl⟩, fun _ => ⟨rfl, rfl⟩⟩
    exact Parallel.cons_iff.2 ⟨htwin, parallel_of_bare hus⟩

theorem Content.Has.names {ds : Content} {path ns : List String} {d : Declaration}
    (h : ds.Has path d) (hwf : ∀ d ∈ ds, d.WellFormed ns) : "" ∉ path := by
  induction h generalizing ns with
  | here => simp
  | inside hs _ ih =>
    cases hwf _ hs with
    | space hn hc =>
      rw [List.mem_cons, not_or]
      refine ⟨?_, ih hc⟩
      rintro rfl
      cases hn

/-- The tokens behind those that are read are still those of a text without faults. -/
theorem Clean.reads {s t : TokenStream} {xs : List Token} (h : Clean s) (hr : Reads s xs t) :
    Clean t := by
  obtain ⟨-, hlex⟩ := h.skip xs.length
  have hahead : (s.skip xs.length).ahead = t.ahead := by
    rw [TokenStream.skip, hr.ahead]
    exact List.drop_left
  exact ⟨hr.stop ▸ h.1, hahead ▸ hlex⟩

/-- Tokens that are read have a text of their own. -/
theorem Clean.lexed {s t : TokenStream} {xs : List Token} (h : Clean s) (hr : Reads s xs t)
    (hne : xs ≠ []) : (Lexed.ofSource (DefaultValue.textOf xs)).errors = [] ∧
      (Lexed.ofSource (DefaultValue.textOf xs)).tokens.map Token.bare =
        lead "" (xs.map Token.bare) := by
  obtain ⟨-, gap, cs, hlex⟩ := h
  rw [hr.ahead, List.map_append] at hlex
  obtain ⟨hd, hwords, -⟩ := hlex.isDefault hne
  exact ⟨hd.clean, hwords⟩

namespace Interface

/-- The place of a declaration is that of its own text: this text is read as one declaration,
which is the same up to places and but for the namespaces around it. -/
theorem parse_slice {source : String} {m : Interface} {path : List String} {d : Declaration}
    (h : parse source = .ok m) (hd : m.content.Has path d) :
    ∃ text d', d.span.slice source = some text ∧ parse text = .ok ⟨[d']⟩ ∧
      d.eraseSpans = d'.relocate (fun _ => default) (path ++ ·) := by
  obtain ⟨he, _, hrun, -⟩ := parse_eq_ok.1 h
  -- what the declaration was read from
  have hnamed := named_ofSource he
  obtain ⟨xs, u, v, hxs, hu⟩ := Parse.exists_reading hd hnamed.stop hrun
  have hbehind := (behind_ofSource he).reads hxs
  obtain ⟨ys, hys, hreach⟩ := Parse.readsTokens_declaration _ u hbehind.stop d v hu
  have hpath : "" ∉ path ++ [] := by
    rw [List.append_nil]
    exact hd.names (wellFormed_of_parse h)
  rw [List.nil_append, ← List.append_nil path] at hu
  obtain ⟨zs, hzs, hne, hdecides⟩ :=
    Parse.fixes_declaration (M := .forget) (hnamed.reads hxs) hpath hu
  obtain rfl := List.append_cancel_right (hys.ahead.symm.trans hzs.ahead)
  -- its tokens stand in a text of their own
  obtain ⟨herrors, htokens⟩ := ((clean_ofSource he).reads hxs).lexed hys hne
  have hahead := ahead_ofSource herrors
  have hstop := (behind_ofSource herrors).stop
  have hparallel := Matching.parallel_of_lead htokens
  obtain ⟨d', t, hd', ht, hmoved⟩ := hdecides _ _ hstop hparallel (hahead ▸ List.prefix_rfl)
  have hempty : t.ahead = [] := by
    have := ht.ahead
    rw [hahead] at this
    exact List.append_right_eq_self.1 this.symm
  have hfirst : (ofLexed (Lexed.ofSource (DefaultValue.textOf ys))).peek.kind ≠ .eof := by
    intro hk
    have hnil := (peek_eq_eof_iff herrors (.refl _)).1 hk
    rw [← hahead, hnil] at hparallel
    exact hne (List.forall₂_nil_right_iff.1 hparallel.twins)
  refine ⟨DefaultValue.textOf ys, d', ?_, parse_eq_ok.2 ⟨herrors, t, ?_, ?_⟩, ?_⟩
  · rw [Span.slice, hbehind.slice? hys hreach, ← toList_textOf, Option.map_some,
      String.ofList_toList]
  · exact .cons (by simpa using hfirst) hd' (.nil t)
  · exact (peek_eq_eof_iff herrors ht).2 hempty
  · rw [← Declaration.relocate_default]
    exact hmoved

/-- A file with a class in a namespace, between comments. -/
def grid : String :=
  "namespace geo \x7b // cells\n  class Grid \x7b Grid(int n = f(1)); \x7d; /* end */ \x7d"

/-- The class is read again without the namespace. -/
theorem grid_parse_slice : ∃ m name d text d', parse grid = .ok m ∧ m.content.Has [name] d ∧
    d.span.slice grid = some text ∧ parse text = .ok ⟨[d']⟩ ∧
    d.eraseSpans = d'.relocate (fun _ => default) ([name] ++ ·) := by
  have hread : ((parse grid).toOption.any fun m =>
      m.content.any fun d => !(Parse.content d).isEmpty) = true := by decide +kernel
  cases hparse : parse grid with
  | error es => rw [hparse] at hread; cases hread
  | ok m =>
    rw [hparse] at hread
    obtain ⟨c, hc, hne⟩ := List.any_eq_true.1 hread
    cases c with
    | space name content span =>
      cases content with
      | nil => cases hne
      | cons d ds =>
        have hd : m.content.Has [name] d := .inside hc (.here List.mem_cons_self)
        obtain ⟨text, d', hslice, hparse', hsame⟩ := parse_slice hparse hd
        exact ⟨m, name, d, text, d', rfl, hd, hslice, hparse', hsame⟩
    | _ => cases hne

end Interface

end TemplateIdl
