import TemplateIdl.Proofs.Decl.Places
import TemplateIdl.Proofs.Grammar.Mimic

/-!
# Local — a declaration is told by its own tokens

* `Matching.Moved`, a declaration that is another one somewhere else;
* `Matching.Decides`, tokens that tell what a rule does wherever they stand;
* `Parse.fixes_declaration` and `Parse.exists_decides_repeats`, the tokens of one
  declaration and of several ones do so, in the same namespaces or in fewer.
-/

namespace TemplateIdl

open TokenStream

/-- A stream of a file in which no name is empty. -/
structure TokenStream.Named (s : TokenStream) : Prop where
  stop : s.stop.kind = .eof
  names : ∀ t ∈ s.ahead, t.kind = .identifier → t.lexeme ≠ ""

theorem TokenStream.Named.reads {s t : TokenStream} {xs : List Token} (h : Named s)
    (hr : Reads s xs t) : Named t := by
  refine ⟨hr.stop ▸ h.stop, fun u hu => h.names u ?_⟩
  rw [hr.ahead]
  exact List.mem_append_right xs hu

theorem named_ofSource {source : String} (h : (Lexed.ofSource source).errors = []) :
    Named (.ofLexed (Lexed.ofSource source)) := by
  refine ⟨(behind_ofSource h).stop, ?_⟩
  rw [ahead_ofSource h]
  intro t ht _ hnil
  have hproper : isTokenText t.kind t.lexeme = true :=
    ((lexes_iff_ofSource source _).2 ⟨h, rfl⟩).proper t.bare (List.mem_map.2 ⟨t, ht, rfl⟩)
  obtain ⟨c, l, hl, -⟩ := isTokenText_iff.1 hproper
  rw [hnil] at hl
  cases hl

/-- Names inside namespaces that have a name themselves. -/
theorem Typename.ofPath_append {path ns : List String} (h : "" ∉ path ++ ns) (name : String)
    (args : List TypeExpr) :
    Typename.ofPath (path ++ ns) name args =
      (Typename.ofPath ns name args).relocate (path ++ ·) := by
  have hplain : ∀ segments : List String, "" ∉ segments →
      Typename.ofPath segments name args = ⟨segments, name, args⟩ := by
    intro segments hs
    unfold Typename.ofPath
    split
    · simp at hs
    · rfl
  have hns : "" ∉ ns := fun hmem => h (List.mem_append_right path hmem)
  rw [hplain _ h, hplain _ hns]
  rfl

namespace Matching

variable (M : Matching) {β γ : Type}

/-- The first declaration is the second one somewhere else, where the first one stands in the
namespaces `path` besides those of the second one. -/
def Moved (path : List String) (d d' : Declaration) : Prop :=
  d.relocate M.left id = d'.relocate M.right (path ++ ·)

/-- Wherever tokens stand that are parallel to `xs`, a run reads just these and gives something
that satisfies `P`. -/
def Decides (xs : List Token) (run : TokenStream → β → TokenStream → Prop) (P : β → Prop) : Prop :=
  ∀ s xs', s.stop.kind = .eof → M.Parallel xs xs' → xs' <+: s.ahead →
    ∃ b t, run s b t ∧ Reads s xs' t ∧ P b

/-- The tokens in front of the stream `s` tell what the rule for declarations does. -/
def Fixes (path ns : List String) (s : TokenStream) (d : Declaration) (t : TokenStream) : Prop :=
  ∃ xs, Reads s xs t ∧ xs ≠ [] ∧
    M.Decides xs (fun s d t => Parse.declaration ns s = .ok d t) (M.Moved path d)

variable {M}

/-- The next tokens of streams that begin with parallel tokens. -/
theorem Parallel.peek {s s' t : TokenStream} {xs xs' : List Token} (h : M.Parallel xs xs')
    (hne : xs ≠ []) (hs : Reads s xs t) (hs' : xs' <+: s'.ahead) : M.Twin s.peek s'.peek := by
  obtain ⟨past, ahead, stop⟩ := s
  obtain ⟨past', ahead', stop'⟩ := s'
  obtain ⟨rest', rfl⟩ := hs'
  obtain ⟨rfl, -⟩ := hs
  obtain ⟨x, xs, rfl⟩ := List.exists_cons_of_ne_nil hne
  obtain ⟨x', xs', rfl, hx, -⟩ := h.exists_cons
  exact hx

end Matching

namespace Parse

variable {M : Matching} {path ns : List String} {s t : TokenStream} {d : Declaration}

/-! ## Single declarations -/

theorem fixes_inclusion (hs : s.stop.kind = .eof) (hk : s.peek.kind = .includeDirective)
    (hrun : declaration (path ++ ns) s = .ok d t) : M.Fixes path ns s d t := by
  rw [declaration_step _ hs, Comparison.declarationRule_include hk] at hrun
  obtain ⟨d, s1, hd, h⟩ := bind_eq_ok.1 hrun
  cases h
  obtain ⟨-, file, hfile, rfl, rfl⟩ := inclusion_eq_ok.1 hd
  have hreads := reads_advance (s := s) (by rw [hk, hs]; decide)
  refine ⟨_, hreads, by simp, ?_⟩
  intro s' xs' hs' hxs hpre
  have hpeek := hxs.peek (by simp) hreads hpre
  have hk' : s'.peek.kind = .includeDirective := hpeek.kind ▸ hk
  obtain ⟨x', xs', rfl, -, hnil, -⟩ := hxs.exists_cons
  rw [List.forall₂_nil_left_iff.1 hnil.twins] at hpre ⊢
  have hreads' := reads_advance (s := s') (by rw [hk', hs']; decide)
  have hx' : x' = s'.peek := by
    have := hreads'.ahead
    obtain ⟨rest, hrest⟩ := hpre
    rw [← hrest] at this
    exact (List.cons.inj this).1
  subst hx'
  have hinclusion : inclusion s' = .ok ⟨String.ofList file, s'.peek.span⟩ s'.advance :=
    inclusion_eq_ok.2 ⟨hk', file, hpeek.lexeme ▸ hfile, rfl, rfl⟩
  refine ⟨.inclusion ⟨String.ofList file, s'.peek.span⟩, s'.advance, ?_, hreads', ?_⟩
  · show declaration ns s' = _
    rw [declaration_step _ hs', Comparison.declarationRule_include hk', bind_of_ok hinclusion]
    rfl
  · rw [Matching.Moved, Declaration.relocate, Declaration.relocate, hpeek.span]

theorem fixes_simple (hs : s.stop.kind = .eof) (hnames : "" ∉ path ++ ns)
    (hinclude : s.peek.kind ≠ .includeDirective) (hspace : s.peek.kind ≠ .kwNamespace)
    (hrun : declaration (path ++ ns) s = .ok d t) : M.Fixes path ns s d t := by
  rw [declaration_step _ hs] at hrun
  obtain ⟨u, hu, hk, rfl, hd⟩ := finishesAt_declarationRule hs hinclude hspace d t hrun
  obtain ⟨ys, hreads, -⟩ := hd.closed.reads hs hu hk
  refine ⟨_, hreads, by simp, ?_⟩
  rintro s' xs' hs' hxs ⟨rest', hpre⟩
  -- both streams begin alike up to the semicolon
  have halong : M.Alongside u.advance.ahead rest' s s' :=
    ⟨⟨hs, hs'⟩, _, xs', hreads.ahead, hpre.symm, hxs, by simp [hk]⟩
  have hplaces : (Comparison.mimic M path u.advance.ahead rest').Places ns :=
    Typename.ofPath_append hnames
  have hcloses : (Comparison.mimic M path u.advance.ahead rest').ClosesAt s s'
      (declarationRule declaration (path ++ ns)) (declarationRule declaration ns) _ :=
    Comparison.closesAt_declarationRule rfl hplaces halong hspace hinclude
  rcases hcloses.ok hrun with hlt | ⟨d', t', hrun', hend, hlike⟩
  · -- what stands behind the semicolon is not read
    exact absurd hlt (Nat.lt_irrefl _)
  have hahead : t'.ahead = rest' := by
    rcases hend with ⟨-, us, us', hus, -, -, hlast⟩ | ⟨-, h⟩
    · obtain rfl := List.append_left_eq_self.1 hus.symm
      cases hlast
    · exact h
  rw [← declaration_step _ hs'] at hrun'
  have hmoving : Moving (declaration ns) := inferInstance
  exact ⟨d', t', hrun', ⟨by rw [hahead, hpre], (hmoving.ok hrun').stop_eq⟩, hlike⟩

/-! ## Namespaces -/

section Repeats

variable {k : Kind} {ds : List Declaration} {n : Nat}

/-- The tokens of several declarations tell what is read from them, if those of lighter ones do. -/
theorem exists_decides_of_fixes
    (hitem : ∀ {u v d}, u.weight ≤ n → Named u → declaration (path ++ ns) u = .ok d v →
      M.Fixes path ns u d v)
    (hn : s.weight ≤ n) (hs : Named s)
    (h : Repeats (·.peek.kind != k) (declaration (path ++ ns)) s ds t) :
    ∃ xs, Reads s xs t ∧ M.Decides xs (Repeats (·.peek.kind != k) (declaration ns))
      (List.Forall₂ (M.Moved path) ds) := by
  induction h with
  | nil s =>
    refine ⟨[], .refl s, ?_⟩
    intro s' xs' _ hxs _
    rw [List.forall₂_nil_left_iff.1 hxs.twins]
    exact ⟨[], s', .nil s', .refl s', .nil⟩
  | @cons s t' _ d ds hm hd _ ih =>
    have hmoving : Moving (declaration (path ++ ns)) := inferInstance
    obtain ⟨xs, hxs, hne, hdecides⟩ := hitem hn hs hd
    obtain ⟨ys, hys, hrest⟩ := ih (Nat.le_trans (hmoving.ok hd).weight_le hn) (hs.reads hxs)
    refine ⟨xs ++ ys, hxs.trans hys, ?_⟩
    intro s' zs hs' hzs hpre
    obtain ⟨xs', ys', rfl, hxs', hys'⟩ := hzs.split
    have hpre' : xs' <+: s'.ahead := (List.prefix_append xs' ys').trans hpre
    obtain ⟨d', u', hd', hu', hmoved⟩ := hdecides s' xs' hs' hxs' hpre'
    rw [hu'.ahead, List.prefix_append_right_inj] at hpre
    obtain ⟨ds', v', hds', hv', hall⟩ := hrest u' ys' (hu'.stop ▸ hs') hys' hpre
    have hm' : (s'.peek.kind != k) = true := (hxs'.peek hne hxs hpre').kind ▸ hm
    exact ⟨d' :: ds', v', .cons hm' hd' hds', hu'.trans hv', .cons hmoved hall⟩

theorem moved_space {name : String} {ds ds' : List Declaration} {a b : Span}
    (h : List.Forall₂ (M.Moved path) ds ds') (hab : M.left a = M.right b) :
    M.Moved path (.space name ds a) (.space name ds' b) := by
  rw [Matching.Moved, Declaration.relocate, Declaration.relocate,
    Declaration.relocateContent_eq_map, Declaration.relocateContent_eq_map,
    map_eq_map_of_forall₂ h, hab]

theorem fixes_space (hs : Named s) (hnames : "" ∉ path ++ ns) (hk : s.peek.kind = .kwNamespace)
    (hitem : ∀ {ns u v d}, u.weight < s.weight → Named u → "" ∉ path ++ ns →
      declaration (path ++ ns) u = .ok d v → M.Fixes path ns u d v)
    (hrun : declaration (path ++ ns) s = .ok d t) : M.Fixes path ns s d t := by
  rw [declaration_step _ hs.stop, Comparison.declarationRule_space hk, space_eq_ok hs.stop] at hrun
  obtain ⟨-, hname, hbrace, content, w, hcontent, hend, rfl, rfl⟩ := hrun
  have hhead := reads_spaceHead hs.stop hk hname hbrace
  have hinside := hs.reads hhead
  -- the declarations inside stand in one namespace more
  have hname' : s.advance.peek.lexeme ≠ "" := by
    refine hs.names _ ?_ hname
    rw [hhead.ahead]
    simp
  rw [List.append_assoc] at hcontent
  have hnames' : "" ∉ path ++ (ns ++ [s.advance.peek.lexeme]) := by
    rw [← List.append_assoc, List.mem_append, List.mem_singleton, not_or]
    exact ⟨hnames, hname'.symm⟩
  have hlt : s.advance.advance.advance.weight < s.weight := by
    have hsum := congrArg Token.totalWeight hhead.ahead
    have hpos := Token.weight_pos s.peek
    simp only [Token.totalWeight_append, Token.totalWeight] at hsum
    rw [weight, weight]
    omega
  obtain ⟨cs, hcs, hdecides⟩ := exists_decides_of_fixes
    (fun hu hnamed => hitem (Nat.lt_of_le_of_lt hu hlt) hnamed hnames') (Nat.le_refl _) hinside
    hcontent
  have hclose := reads_advance (s := w) (by rw [hend, hcs.stop, hinside.stop]; decide)
  refine ⟨_, hhead.trans (hcs.trans hclose), by simp, ?_⟩
  rintro ⟨past, ahead, stop⟩ zs hs' hzs ⟨rest, rfl⟩
  obtain ⟨n, zs, rfl, hn, hzs, -⟩ := hzs.exists_cons
  obtain ⟨i, zs, rfl, hi, hzs, -⟩ := hzs.exists_cons
  obtain ⟨b, zs, rfl, hb, hzs, -⟩ := hzs.exists_cons
  have hzs : M.Parallel (cs ++ [w.peek]) zs := hzs
  obtain ⟨cs', es, rfl, hcs', hes⟩ := hzs.split
  obtain ⟨e, es, rfl, he, hnil, -⟩ := hes.exists_cons
  obtain rfl := List.forall₂_nil_left_iff.1 hnil.twins
  obtain ⟨ds, w', hds, hw', hall⟩ := hdecides
    ⟨b :: i :: n :: past, cs' ++ (e :: rest), stop⟩ cs' hs' hcs' (List.prefix_append _ _)
  obtain ⟨past', ahead', stop'⟩ := w'
  obtain ⟨hahead, rfl⟩ := hw'
  obtain rfl := List.append_cancel_left hahead
  refine ⟨.space i.lexeme ds (n.span.merge e.span), ⟨e :: past', rest, stop'⟩, ?_, ⟨rfl, rfl⟩, ?_⟩
  · show declaration ns _ = _
    rw [declaration_step _ hs', Comparison.declarationRule_space (hn.kind ▸ hk), space_eq_ok hs']
    refine ⟨hn.kind ▸ hk, hi.kind ▸ hname, hb.kind ▸ hbrace, ds, ⟨past', e :: rest, stop'⟩, ?_,
      he.kind ▸ hend, rfl, rfl⟩
    have hrest : cs' ++ [e] ++ rest = cs' ++ (e :: rest) := List.append_assoc _ _ _
    show Repeats _ (declaration (ns ++ [i.lexeme])) ⟨b :: i :: n :: past, cs' ++ [e] ++ rest, stop'⟩
      _ _
    rw [hrest, ← hi.lexeme]
    exact hds
  · rw [← hi.lexeme]
    exact moved_space hall (M.merge hn.span he.span)

/-- The tokens of a declaration tell what is read from them, wherever they stand. -/
theorem fixes_declaration (hs : Named s) (hnames : "" ∉ path ++ ns)
    (hrun : declaration (path ++ ns) s = .ok d t) : M.Fixes path ns s d t := by
  -- the declarations inside a namespace weigh less
  generalize hn : s.weight = n
  induction n using Nat.strongRecOn generalizing s t d ns with
  | ind n ih =>
    by_cases hinclude : s.peek.kind = .includeDirective
    · exact fixes_inclusion hs.stop hinclude hrun
    by_cases hspace : s.peek.kind = .kwNamespace
    · refine fixes_space hs hnames hspace ?_ hrun
      intro ns u v d hu hnamed hnames hd
      exact ih u.weight (hn ▸ hu) hnamed hnames hd rfl
    · exact fixes_simple hs.stop hnames hinclude hspace hrun

/-- The tokens of several declarations tell what is read from them, wherever they stand. -/
theorem exists_decides_repeats (hs : Named s) (hnames : "" ∉ path ++ ns)
    (hrun : Repeats (·.peek.kind != k) (declaration (path ++ ns)) s ds t) :
    ∃ xs, Reads s xs t ∧ M.Decides xs (Repeats (·.peek.kind != k) (declaration ns))
      (List.Forall₂ (M.Moved path) ds) :=
  exists_decides_of_fixes (fun _ hu hd => fixes_declaration hu hnames hd) (Nat.le_refl _)
    hs hrun

end Repeats

end Parse

end TemplateIdl
