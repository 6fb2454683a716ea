import TemplateIdl.Proofs.Decl.Local
import TemplateIdl.Proofs.Token.Concat

/-!
# Concat — two files one behind the other

* `Matching.same`, `Matching.shift` and `Matching.symm`, tokens that stay where they are and tokens
  that stand further on;
* `Parse.exists_repeats_of_parallel`, all declarations of a file are read again from parallel
  tokens;
* `Interface.parse_append`, a file followed by another one in lines of its own is read as the
  declarations of both.
-/

namespace TemplateIdl

open TokenStream

/-! ## Tokens further on -/

namespace Matching

/-- Places mean the same only if they are the same. -/
def same : Matching := ⟨id, id, fun ha hb => by rw [id, id] at *; rw [ha, hb]⟩

/-- Places mean the same if the second one stands so many bytes and lines further on. -/
def shift (bytes lines : Nat) : Matching where
  left := Span.shift bytes lines
  right := id
  merge ha hb := by rw [Span.shift_merge, ha, hb]; rfl

/-- The texts change their parts. -/
def symm (M : Matching) : Matching :=
  ⟨M.right, M.left, fun ha hb => (M.merge ha.symm hb.symm).symm⟩

variable {M : Matching} {xs xs' : List Token}

theorem Twin.symm {t t' : Token} (h : M.Twin t t') : M.symm.Twin t' t :=
  ⟨⟨h.kind.symm, h.lexeme.symm, h.span.symm⟩, fun hk =>
    (h.halves (h.kind.trans hk)).imp Eq.symm Eq.symm⟩

theorem Parallel.symm (h : M.Parallel xs xs') : M.symm.Parallel xs' xs :=
  ⟨(h.twins.imp fun _ _ ht => ht.symm).flip, h.gaps.symm⟩

theorem Parallel.refl (xs : List Token) : same.Parallel xs xs :=
  ⟨List.forall₂_same.2 fun _ _ => ⟨⟨rfl, rfl, rfl⟩, fun _ => ⟨rfl, rfl⟩⟩, rfl⟩

theorem parallel_shift (bytes lines : Nat) (g : String) (xs : List Token) :
    (shift bytes lines).Parallel xs (lead g (xs.map (Token.shift bytes lines))) := by
  have htwin : ∀ (t : Token) (g : String),
      (shift bytes lines).Twin t { t.shift bytes lines with gap := g } := by
    intro t g
    refine ⟨⟨rfl, rfl, rfl⟩, fun _ => ⟨rfl, ?_⟩⟩
    simp only [shift, secondHalf, Span.shift, Position.shift, Token.shift, id, Nat.add_right_comm]
  have hall : ∀ ts : List Token,
      List.Forall₂ (shift bytes lines).Twin ts (ts.map (Token.shift bytes lines)) :=
    fun ts => List.forall₂_map_right_iff.2 (List.forall₂_same.2 fun t _ => htwin t t.gap)
  cases xs with
  | nil => exact ⟨.nil, rfl⟩
  | cons x xs =>
    refine Parallel.cons_iff.2 ⟨htwin x g, ⟨hall xs, ?_⟩, ?_⟩
    · rw [List.map_tail, List.map_tail, List.map_map]
      rfl
    · rw [List.map_map]
      rfl

end Matching

/-! ## Declarations further on -/

section Moved

variable {ds ds' : List Declaration}

theorem eq_of_moved_same (h : List.Forall₂ (Matching.same.Moved []) ds ds') : ds' = ds := by
  have hmap : ds.map (Declaration.relocate id id) = ds'.map (Declaration.relocate id id) :=
    map_eq_map_of_forall₂ h
  have hid : Declaration.relocate id id = id := funext Declaration.relocate_id
  rwa [hid, List.map_id, List.map_id, eq_comm] at hmap

theorem eq_of_moved_shift {bytes lines : Nat}
    (h : List.Forall₂ ((Matching.shift bytes lines).Moved []) ds ds') :
    ds' = ds.map (Declaration.relocate (Span.shift bytes lines) id) := by
  have hmap : ds.map (Declaration.relocate (Span.shift bytes lines) id) =
      ds'.map (Declaration.relocate id id) := map_eq_map_of_forall₂ h
  have hid : Declaration.relocate id id = id := funext Declaration.relocate_id
  rwa [hid, List.map_id, eq_comm] at hmap

end Moved

/-- All declarations of a file are read again from parallel tokens. -/
theorem Parse.exists_repeats_of_parallel {M : Matching} {s s' t : TokenStream} {us : List Token}
    {ds : List Declaration} (hs : Named s) (hs' : s'.stop.kind = .eof)
    (hparallel : M.Parallel s.ahead us) (hpre : us <+: s'.ahead) (ht : t.ahead = [])
    (hrun : Repeats (·.peek.kind != .eof) (declaration []) s ds t) :
    ∃ ds' t', Repeats (·.peek.kind != .eof) (declaration []) s' ds' t' ∧ Reads s' us t' ∧
      List.Forall₂ (M.Moved []) ds ds' := by
  have hnames : "" ∉ ([] : List String) ++ [] := by simp
  obtain ⟨xs, hxs, hdecides⟩ : ∃ xs, Reads s xs t ∧ M.Decides xs
      (Repeats (·.peek.kind != .eof) (declaration [])) (List.Forall₂ (M.Moved []) ds) :=
    exists_decides_repeats hs hnames hrun
  have hall := hxs.ahead
  rw [ht, List.append_nil] at hall
  rw [hall] at hparallel
  exact hdecides s' us hs' hparallel hpre

namespace Interface

variable {source more : String} {m : Interface}

/-- The declarations of a file are read from the front of a longer one. -/
theorem exists_repeats_front (h : parse source = .ok m)
    (hmore : more.toList.head? ≠ some '\uFEFF')
    (he : (Lexed.ofSource (source ++ "\n" ++ more)).errors = []) :
    ∃ t, Parse.Repeats (·.peek.kind != .eof) (Parse.declaration [])
        (.ofLexed (Lexed.ofSource (source ++ "\n" ++ more))) m.content t ∧
      Reads (.ofLexed (Lexed.ofSource (source ++ "\n" ++ more))) (Lexed.ofSource source).tokens
        t := by
  obtain ⟨hsource, t, hrun, hend⟩ := parse_eq_ok.1 h
  obtain ⟨g, htokens, -⟩ := Lexed.ofSource_append hsource hmore
  obtain ⟨xs, hxs⟩ := hrun.reads (Parse.readsTokens_declaration []) (behind_ofSource hsource).stop
  have hahead := ahead_ofSource hsource
  have hparallel := Matching.Parallel.refl (Lexed.ofSource source).tokens
  rw [← hahead] at hparallel
  obtain ⟨ds, t', hrun', ht', hmoved⟩ := Parse.exists_repeats_of_parallel (named_ofSource hsource)
    (behind_ofSource he).stop hparallel
    (by rw [ahead_ofSource he, htokens, hahead]; exact List.prefix_append _ _)
    ((peek_eq_eof_iff hsource hxs).1 hend) hrun
  rw [eq_of_moved_same hmoved] at hrun'
  exact ⟨t', hrun', hahead ▸ ht'⟩

/-- Behind the tokens of the file stand those of the rest, further on. -/
theorem parallel_behind {t : TokenStream} (h : (Lexed.ofSource source).errors = [])
    (hmore : more.toList.head? ≠ some '\uFEFF')
    (he : (Lexed.ofSource (source ++ "\n" ++ more)).errors = [])
    (hme : (Lexed.ofSource more).errors = [])
    (ht : Reads (.ofLexed (Lexed.ofSource (source ++ "\n" ++ more))) (Lexed.ofSource source).tokens
      t) :
    (Matching.shift (byteLength source.toList + 1) (source.toList.count '\n' + 1)).Parallel
      (ofLexed (Lexed.ofSource more)).ahead t.ahead := by
  obtain ⟨g, htokens, -⟩ := Lexed.ofSource_append h hmore
  have hahead := ht.ahead
  rw [ahead_ofSource he, htokens] at hahead
  rw [ahead_ofSource hme, ← List.append_cancel_left hahead]
  exact Matching.parallel_shift _ _ g _

/-- The rest is read behind the file as by itself. -/
theorem parse_append_of_parse {m' : Interface} (h : parse source = .ok m)
    (hmore : more.toList.head? ≠ some '\uFEFF') (hm' : parse more = .ok m') :
    parse (source ++ "\n" ++ more) = .ok ⟨m.content ++
      m'.content.map (Declaration.relocate
        (Span.shift (byteLength source.toList + 1) (source.toList.count '\n' + 1)) id)⟩ := by
  obtain ⟨hsource, -⟩ := parse_eq_ok.1 h
  obtain ⟨hme, v, hrun, hend⟩ := parse_eq_ok.1 hm'
  obtain ⟨-, -, herrors⟩ := Lexed.ofSource_append hsource hmore
  have he := herrors.2 hme
  obtain ⟨t, hfront, ht⟩ := exists_repeats_front h hmore he
  obtain ⟨ys, hys⟩ := hrun.reads (Parse.readsTokens_declaration []) (behind_ofSource hme).stop
  obtain ⟨ds, u, hback, hu, hmoved⟩ := Parse.exists_repeats_of_parallel (named_ofSource hme)
    (ht.stop ▸ (behind_ofSource he).stop) (parallel_behind hsource hmore he hme ht)
    List.prefix_rfl ((peek_eq_eof_iff hme hys).1 hend) hrun
  rw [← eq_of_moved_shift hmoved]
  refine parse_eq_ok.2 ⟨he, u, hfront.append hback, (peek_eq_eof_iff he (ht.trans hu)).2 ?_⟩
  exact List.append_right_eq_self.1 hu.ahead.symm

/-- The rest can be read by itself if it can be read behind the file. -/
theorem exists_parse_of_append {m' : Interface} (h : parse source = .ok m)
    (hmore : more.toList.head? ≠ some '\uFEFF') (hm' : parse (source ++ "\n" ++ more) = .ok m') :
    ∃ m', parse more = .ok m' := by
  obtain ⟨hsource, -⟩ := parse_eq_ok.1 h
  obtain ⟨he, v, hrun, hend⟩ := parse_eq_ok.1 hm'
  obtain ⟨-, -, herrors⟩ := Lexed.ofSource_append hsource hmore
  have hme := herrors.1 he
  obtain ⟨t, hfront, ht⟩ := exists_repeats_front h hmore he
  -- the run goes on behind the file, with tokens that the rest has by itself, too
  obtain ⟨ds, -, hback⟩ := hfront.split hrun (by simp [hend])
  obtain ⟨zs, hzs⟩ := hback.reads (Parse.readsTokens_declaration [])
    (ht.stop ▸ (behind_ofSource he).stop)
  obtain ⟨ds', u, hrun', hu, -⟩ := Parse.exists_repeats_of_parallel ((named_ofSource he).reads ht)
    (behind_ofSource hme).stop (parallel_behind hsource hmore he hme ht).symm List.prefix_rfl
    ((peek_eq_eof_iff he (ht.trans hzs)).1 hend) hback
  refine ⟨⟨ds'⟩, parse_eq_ok.2 ⟨hme, u, hrun', (peek_eq_eof_iff hme hu).2 ?_⟩⟩
  exact List.append_right_eq_self.1 hu.ahead.symm

/-- What a file is read as is read again from the front of a longer one, if the rest begins in a
line of its own. The rest is read as by itself, and all its places stand behind the file and its
lines. -/
theorem parse_append (h : parse source = .ok m) (hmore : more.toList.head? ≠ some '\uFEFF') :
    ((∃ m', parse (source ++ "\n" ++ more) = .ok m') ↔ ∃ m', parse more = .ok m') ∧
      ∀ m', parse more = .ok m' → parse (source ++ "\n" ++ more) = .ok ⟨m.content ++
        m'.content.map (Declaration.relocate
          (Span.shift (byteLength source.toList + 1) (source.toList.count '\n' + 1)) id)⟩ := by
  refine ⟨⟨?_, ?_⟩, fun m' hm' => parse_append_of_parse h hmore hm'⟩
  · rintro ⟨m', hm'⟩
    exact exists_parse_of_append h hmore hm'
  · rintro ⟨m', hm'⟩
    exact ⟨_, parse_append_of_parse h hmore hm'⟩

/-- A file that ends within a comment. -/
def commentEnd : String := "namespace geo \x7b class Grid; \x7d // no line behind"

/-- The file can be followed by another one, such as itself, and its namespace is read twice then. -/
theorem commentEnd_parse_append : ∃ m, parse commentEnd = .ok m ∧
    m.content.length = 1 ∧ m.text = "namespace geo \x7b\nclass Grid;\n\x7d\n" ∧
    parse (commentEnd ++ "\n" ++ commentEnd) = .ok ⟨m.content ++
      m.content.map (Declaration.relocate
        (Span.shift (byteLength commentEnd.toList + 1) (commentEnd.toList.count '\n' + 1)) id)⟩ := by
  have hread : ((parse commentEnd).toOption.any fun m => decide (m.content.length = 1 ∧
      m.text = "namespace geo \x7b\nclass Grid;\n\x7d\n")) = true := by decide +kernel
  cases hparse : parse commentEnd with
  | error es => rw [hparse] at hread; cases hread
  | ok m =>
    rw [hparse] at hread
    obtain ⟨hlength, htext⟩ := of_decide_eq_true hread
    exact ⟨m, rfl, hlength, htext, (parse_append hparse (by decide +kernel)).2 m hparse⟩

end Interface

end TemplateIdl
