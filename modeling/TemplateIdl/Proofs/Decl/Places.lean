import TemplateIdl.Proofs.Grammar.Extent

/-!
# Places — where the declarations of a file stand

* `Content.Has`, a declaration inside some namespaces, `contentNested`, the list of all that a
  content has, and `Parse.exists_reading`, which the rule for declarations has read there;
* `TokenStream.Behind`, a stream in the text that its tokens are cut from;
* `Content.Placed`, declarations and members at real places, those of one list one behind the
  other and all of them inside what contains them;
* `Interface.placed_of_parse`, so all that is read from a text is placed in it.
-/

namespace TemplateIdl

open TokenStream

/-- The declaration stands inside the namespaces `path`. -/
inductive Content.Has : Content → List String → Declaration → Prop
  | here {ds : Content} {d : Declaration} (h : d ∈ ds) : Has ds [] d
  | inside {ds content : Content} {name : String} {span : Span} {path : List String}
      {d : Declaration} (hs : .space name content span ∈ ds) (h : Has content path d) :
      Has ds (name :: path) d

theorem Content.Has.mono {as bs : Content} {path : List String} {d : Declaration}
    (h : as.Has path d) (hsub : as ⊆ bs) : bs.Has path d := by
  cases h with
  | here hd => exact .here (hsub hd)
  | inside hs h => exact .inside (hsub hs) h

mutual

/-- The declarations inside the declaration at any depth. -/
def Declaration.inner : Declaration → List Declaration
  | .space _ content _ => contentNested content
  | .inclusion _ | .cls _ | .enumeration _ | .forward _ | .typedef _ | .function _ | .var _ => []

/-- The declarations at any depth. -/
def contentNested : List Declaration → List Declaration
  | [] => []
  | d :: ds => d :: (d.inner ++ contentNested ds)

end

mutual

theorem exists_has_of_mem_inner (d : Declaration) {e : Declaration} (he : e ∈ d.inner) :
    ∃ path, Content.Has [d] path e := by
  cases d with
  | space name content span =>
    obtain ⟨path, h⟩ := exists_has_of_mem_nested content he
    exact ⟨name :: path, .inside List.mem_cons_self h⟩
  | _ => cases he

theorem exists_has_of_mem_nested (ds : Content) {e : Declaration} (he : e ∈ contentNested ds) :
    ∃ path, ds.Has path e := by
  cases ds with
  | nil => cases he
  | cons d ds =>
    rw [contentNested, List.mem_cons, List.mem_append] at he
    rcases he with rfl | he | he
    · exact ⟨[], .here List.mem_cons_self⟩
    · obtain ⟨path, h⟩ := exists_has_of_mem_inner d he
      exact ⟨path, h.mono (by simp)⟩
    · obtain ⟨path, h⟩ := exists_has_of_mem_nested ds he
      exact ⟨path, h.mono (List.subset_cons_self d ds)⟩

end

theorem inner_subset_nested {ds : Content} {d : Declaration} (hd : d ∈ ds) :
    d :: d.inner ⊆ contentNested ds := by
  induction ds with
  | nil => cases hd
  | cons e ds ih =>
    rw [contentNested, ← List.cons_append]
    rcases List.mem_cons.1 hd with rfl | hd
    · exact List.subset_append_left _ _
    · exact List.Subset.trans (ih hd) (List.subset_append_right _ _)

/-- What stands somewhere in a content is what stands in it at any depth. -/
theorem mem_contentNested {ds : Content} {d : Declaration} :
    d ∈ contentNested ds ↔ ∃ path, ds.Has path d := by
  constructor
  · exact exists_has_of_mem_nested ds
  · rintro ⟨path, h⟩
    induction h with
    | here hd => exact inner_subset_nested hd List.mem_cons_self
    | inside hs _ ih => exact inner_subset_nested hs (List.mem_cons_of_mem _ ih)

/-! ## Declarations at any depth are read -/

namespace Parse

section Repeats

variable {α : Type} {x : Parse α} {place : α → Span} {more : TokenStream → Bool}
  {s t : TokenStream} {as : List α}

/-- The rule gives values whose places reach over the tokens that were read. -/
def ReadsTokens (x : Parse α) (place : α → Span) : Prop :=
  ∀ s : TokenStream, s.stop.kind = .eof →
    Yields x s fun a t => ∃ xs, Reads s xs t ∧ Reaches xs (place a)

theorem readsTokens_member (h : ClassHead) : ReadsTokens (member h) Member.span :=
  fun _ hs => reads_member hs

theorem readsTokens_declaration (ns : List String) :
    ReadsTokens (declaration ns) Declaration.span :=
  fun _ hs _ _ h => (reading_of_ok hs h).reads hs

theorem Repeats.reads (hx : ReadsTokens x place) (hs : s.stop.kind = .eof)
    (h : Repeats more x s as t) : ∃ xs, Reads s xs t := by
  induction h with
  | nil s => exact ⟨[], .refl s⟩
  | cons _ ha _ ih =>
    obtain ⟨xs, hxs, -⟩ := hx _ hs _ _ ha
    obtain ⟨ys, hys⟩ := ih (hxs.stop ▸ hs)
    exact ⟨xs ++ ys, hxs.trans hys⟩

/-- Each of several items was read from some stream on the way. -/
theorem Repeats.mem (hx : ReadsTokens x place) (hs : s.stop.kind = .eof)
    (h : Repeats more x s as t) {a : α} (ha : a ∈ as) :
    ∃ xs u v, Reads s xs u ∧ x u = .ok a v := by
  induction h with
  | nil => cases ha
  | @cons s t' _ b bs _ hb _ ih =>
    rcases List.mem_cons.1 ha with rfl | ha
    · exact ⟨[], s, t', .refl s, hb⟩
    · obtain ⟨xs, hxs, -⟩ := hx _ hs _ _ hb
      obtain ⟨ys, u, v, hys, hv⟩ := ih (hxs.stop ▸ hs) ha
      exact ⟨xs ++ ys, u, v, hxs.trans hys, hv⟩

end Repeats

/-- A declaration inside namespaces was read by the rule for declarations there. -/
theorem exists_reading {ds : Content} {path : List String} {d : Declaration} (h : ds.Has path d)
    {ns : List String} {more : TokenStream → Bool} {s t : TokenStream} (hs : s.stop.kind = .eof)
    (hrun : Repeats more (declaration ns) s ds t) :
    ∃ xs u v, Reads s xs u ∧ declaration (ns ++ path) u = .ok d v := by
  induction h generalizing ns more s t with
  | here hd =>
    rw [List.append_nil]
    exact hrun.mem (readsTokens_declaration ns) hs hd
  | @inside ds content name span path d hspace h ih =>
    obtain ⟨xs, u, v, hxs, hu⟩ := hrun.mem (readsTokens_declaration ns) hs hspace
    have hstop : u.stop.kind = .eof := hxs.stop ▸ hs
    cases reading_of_ok hstop hu with
    | space hk hname hbrace hcontent hend =>
      have hhead := reads_spaceHead hstop hk hname hbrace
      obtain ⟨ys, u', v', hys, hu'⟩ := ih (hhead.stop ▸ hstop) hcontent
      refine ⟨_, u', v', hxs.trans (hhead.trans hys), ?_⟩
      rw [List.append_assoc] at hu'
      exact hu'
    | simple _ _ _ _ hd =>
      -- what ends with a semicolon contains nothing
      have hnil : content = [] := hd.content
      subst hnil
      exact absurd h (by rintro (h | h) <;> cases ‹_ ∈ []›)

end Parse

/-! ## Streams in their text -/

/-- The stream stands behind `front` in the text that its tokens are cut from. -/
structure TokenStream.Behind (source front : List Char) (s : TokenStream) : Prop where
  laid : ∃ cs, source = front ++ cs ∧ Laid front cs s.ahead s.stop
  clean : ∀ t ∈ s.ahead, t.kind ≠ .error

namespace TokenStream.Behind

variable {source front : List Char} {s t : TokenStream} {xs : List Token} {a : Span}

theorem stop (h : Behind source front s) : s.stop.kind = .eof := by
  obtain ⟨⟨cs, -, hlaid⟩, -⟩ := h
  exact hlaid.stop_eq.1

theorem reads (h : Behind source front s) (hr : Reads s xs t) :
    Behind source (front ++ Token.chars xs) t := by
  obtain ⟨⟨cs, rfl, hlaid⟩, hclean⟩ := h
  rw [hr.ahead, ← hr.stop] at hlaid
  rw [hr.ahead] at hclean
  obtain ⟨rest, rfl, hrest⟩ := hlaid.run fun u hu => hclean u (by simp [hu])
  exact ⟨⟨rest, by simp, hrest⟩, fun u hu => hclean u (by simp [hu])⟩

/-- What reaches over tokens that are read lies in the text, where these tokens stand. -/
theorem reaches (h : Behind source front s) (hr : Reads s xs t) (ha : Reaches xs a) :
    ∃ gap, Token.chars xs = gap ++ Token.chars (lead "" xs) ∧
      a.Covers (front ++ gap) (Token.chars (lead "" xs)) ∧ Span.LiesIn source a := by
  obtain ⟨⟨cs, rfl, hlaid⟩, hclean⟩ := h
  rw [hr.ahead] at hlaid hclean
  have hxs : ∀ u ∈ xs, u.kind ≠ .error := fun u hu => hclean u (by simp [hu])
  obtain ⟨rest, rfl, -⟩ := hlaid.run hxs
  obtain ⟨gap, hgap, hcovers⟩ := hlaid.covers_run hxs ha
  refine ⟨gap, hgap, hcovers, ?_⟩
  have := hcovers.liesIn rest
  rw [hgap]
  simpa using this

/-- The text at the place is that of the tokens, without the gap in front. -/
theorem slice? (h : Behind source front s) (hr : Reads s xs t) (ha : Reaches xs a) :
    a.slice? source = some (Token.chars (lead "" xs)) := by
  obtain ⟨gap, hgap, hcovers, -⟩ := h.reaches hr ha
  obtain ⟨⟨rest, rfl, -⟩, -⟩ := h.reads hr
  have := hcovers.slice? rest
  rw [hgap]
  simpa using this

/-- The place begins and ends where the tokens do. -/
theorem bounds (h : Behind source front s) (hr : Reads s xs t) (ha : Reaches xs a) :
    byteLength front ≤ a.offset ∧ a.stop = byteLength (front ++ Token.chars xs) := by
  obtain ⟨gap, hgap, hcovers, -⟩ := h.reaches hr ha
  rw [hcovers.stop, hcovers.offset, hgap, byteLength_append]
  exact ⟨Nat.le_add_right _ _, by simp⟩

/-- The place begins before all tokens but the first one. -/
theorem offset_le {ys zs : List Token} (h : Behind source front s) (hr : Reads s (ys ++ zs) t)
    (hne : ys ≠ []) (ha : Reaches (ys ++ zs) a) :
    a.offset ≤ byteLength (front ++ Token.chars ys) := by
  obtain ⟨gap, hgap, hcovers, -⟩ := h.reaches hr ha
  rw [lead_append hne, Token.chars_append, Token.chars_append, ← List.append_assoc] at hgap
  rw [hcovers.offset, List.append_cancel_right hgap]
  simp

end TokenStream.Behind

/-- The stream of a text without faults stands at its beginning. -/
theorem behind_ofSource {source : String} (h : (Lexed.ofSource source).errors = []) :
    Behind source.toList [] (.ofLexed (Lexed.ofSource source)) := by
  refine ⟨⟨source.toList, rfl, ?_⟩, ?_⟩
  · rw [ahead_ofSource h]
    exact laid_ofSource source
  · intro t ht
    have := (List.mem_filter.1 ht).2
    simpa using this

/-- No token of a text is the end of the file. -/
theorem peek_eq_eof_iff {source : String} (h : (Lexed.ofSource source).errors = [])
    {xs : List Token} {t : TokenStream} (hr : Reads (.ofLexed (Lexed.ofSource source)) xs t) :
    t.peek.kind = .eof ↔ t.ahead = [] := by
  have hahead := hr.ahead
  rw [ahead_ofSource h] at hahead
  have hstop : t.stop.kind = .eof := hr.stop ▸ (behind_ofSource h).stop
  obtain ⟨past, ahead, stop⟩ := t
  cases ahead with
  | nil => exact ⟨fun _ => rfl, fun _ => hstop⟩
  | cons u us =>
    have hu : u ∈ (Lexed.ofSource source).tokens := hahead ▸ by simp
    exact ⟨fun hk => absurd hk (Lexed.pos_of_mem_tokens hu).1, nofun⟩

/-! ## Items one behind the other -/

section Items

variable {α : Type} {x : Parse α} {place : α → Span} {more : TokenStream → Bool}
  {s t : TokenStream} {as : List α} {source : String} {front : List Char}

/-- What the places of items satisfy that are read behind `front`, up to the byte `stop`. -/
structure Row (source : String) (start stop : Nat) (spans : List Span) : Prop where
  real : ∀ a ∈ spans, a.IsReal source
  ascending : Span.Ascending spans
  bounds : ∀ a ∈ spans, start ≤ a.offset ∧ a.stop ≤ stop

theorem Parse.Repeats.row (hx : Parse.ReadsTokens x place)
    (h : Parse.Repeats more x s as t) (hs : Behind source.toList front s) :
    ∃ xs, Reads s xs t ∧
      Row source (byteLength front) (byteLength (front ++ Token.chars xs)) (as.map place) := by
  induction h generalizing front with
  | nil s => exact ⟨[], .refl s, by simp, .nil, by simp⟩
  | cons _ ha _ ih =>
    obtain ⟨xs, hxs, hreach⟩ := hx _ hs.stop _ _ ha
    obtain ⟨hlow, hhigh⟩ := hs.bounds hxs hreach
    obtain ⟨-, -, -, hlies⟩ := hs.reaches hxs hreach
    obtain ⟨ys, hys, hrow⟩ := ih (hs.reads hxs)
    refine ⟨xs ++ ys, hxs.trans hys, ?_, ?_, ?_⟩
    · simpa using ⟨hlies.isReal, by simpa using hrow.real⟩
    · refine List.Pairwise.cons (fun b hb => ?_) hrow.ascending
      exact hhigh ▸ (hrow.bounds b hb).1
    · have hmono : byteLength front ≤ byteLength (front ++ Token.chars xs) := by simp
      have hfront : byteLength (front ++ Token.chars xs) ≤
          byteLength (front ++ Token.chars xs ++ Token.chars ys) := by simp
      rw [Token.chars_append, ← List.append_assoc]
      intro b hb
      rcases List.mem_cons.1 hb with rfl | hb
      · exact ⟨hlow, hhigh ▸ hfront⟩
      · obtain ⟨h1, h2⟩ := hrow.bounds b hb
        exact ⟨Nat.le_trans hmono h1, h2⟩

/-- What is read between the first token and the last one of a place stands inside it. -/
theorem Row.inside {xs ys ms zs : List Token} {a : Span} {v w : TokenStream} {spans : List Span}
    (hs : Behind source.toList front s) (hxs : Reads s xs t) (ha : Reaches xs a)
    (hys : Reads s ys v) (hne : ys ≠ []) (hms : Reads v ms w) (hzs : Reads w zs t)
    (hrow : Row source (byteLength (front ++ Token.chars ys))
      (byteLength (front ++ Token.chars ys ++ Token.chars ms)) spans) :
    ∀ b ∈ spans, b.Inside a := by
  have hall : Reads s (ys ++ (ms ++ zs)) t := hys.trans (hms.trans hzs)
  have hxs' : xs = ys ++ (ms ++ zs) := List.append_cancel_right (hxs.ahead.symm.trans hall.ahead)
  rw [hxs'] at ha
  have hlow := hs.offset_le hall hne ha
  obtain ⟨-, hhigh⟩ := hs.bounds hall ha
  intro b hb
  obtain ⟨h1, h2⟩ := hrow.bounds b hb
  simp only [Token.chars_append, byteLength_append] at hlow hhigh h1 h2
  exact ⟨by omega, by omega⟩

end Items

/-! ## Placed declarations -/

/-- The members of a class stand one behind the other inside the class. -/
def ClassDecl.Encloses (source : String) (c : ClassDecl) : Prop :=
  ∃ (h : ClassHead) (ms : List Member), c = h.close ms c.span ∧ Span.Ascending (ms.map Member.span) ∧
    ∀ m ∈ ms, m.span.IsReal source ∧ m.span.Inside c.span

/-- All declarations and members stand at real places, those of one list one behind the other,
and inside what contains them. -/
structure Content.Placed (source : String) (ds : Content) : Prop where
  real : ∀ {path d}, ds.Has path d → d.span.IsReal source
  ascending : Span.Ascending (ds.map Declaration.span)
  nested : ∀ {path name content span}, ds.Has path (.space name content span) →
    Span.Ascending (content.map Declaration.span) ∧ ∀ d ∈ content, d.span.Inside span
  members : ∀ {path c}, ds.Has path (.cls c) → c.Encloses source

section Placed

variable {ns : List String} {s t : TokenStream} {source : String} {front : List Char}

theorem Parse.Reading.nested {name : String} {content : List Declaration} {span : Span}
    (hs : Behind source.toList front s) (h : Parse.Reading ns s (.space name content span) t) :
    Span.Ascending (content.map Declaration.span) ∧ ∀ d ∈ content, d.span.Inside span := by
  obtain ⟨xs, hxs, ha⟩ := h.reads hs.stop
  cases h with
  | @space _ w hk hname hbrace hcontent hend =>
    have hhead := Parse.reads_spaceHead hs.stop hk hname hbrace
    obtain ⟨ms, hms, hrow⟩ :=
      hcontent.row (Parse.readsTokens_declaration _) (hs.reads hhead)
    have hstop : w.stop.kind = .eof := hms.stop ▸ hhead.stop ▸ hs.stop
    have hzs := reads_advance (s := w) (by rw [hend, hstop]; decide)
    have hinside := hrow.inside hs hxs ha hhead (by simp) hms hzs
    exact ⟨hrow.ascending, fun d hd => hinside d.span (List.mem_map_of_mem hd)⟩
  | simple _ _ _ _ hd =>
    have hnil : content = [] := hd.content
    subst hnil
    exact ⟨.nil, by simp⟩

theorem Parse.Reading.encloses {c : ClassDecl} (hs : Behind source.toList front s)
    (h : Parse.Reading ns s (.cls c) t) : c.Encloses source := by
  obtain ⟨xs, hxs, ha⟩ := h.reads hs.stop
  cases h with
  | simple _ _ hu hk hd =>
    obtain ⟨h, ms, v, w, hv, hbrace, hmembers, hend, hback, hc⟩ := hd.members c rfl
    -- the tokens up to the opening brace, the members and the tokens from the closing one on
    obtain ⟨ys, hys⟩ := hv.reads (by rw [hbrace]; decide)
    have hvstop : v.stop.kind = .eof := hys.stop ▸ hs.stop
    have hhead := hys.trans (reads_advance (s := v) (by rw [hbrace, hvstop]; decide))
    obtain ⟨zs, hzs, hrow⟩ := hmembers.row (Parse.readsTokens_member h) (hs.reads hhead)
    have hwstop : w.stop.kind = .eof := hzs.stop ▸ hhead.stop ▸ hs.stop
    have hclose := reads_advance (s := w) (by rw [hend, hwstop]; decide)
    obtain ⟨ws, hws⟩ := hback.reads (by rw [hk]; decide)
    have hustop := hws.stop
    rw [stop_advance] at hustop
    have hsemicolon := reads_advance (by rw [hk, hustop, hwstop]; decide)
    have htail := hclose.trans (hws.trans hsemicolon)
    have hinside := hrow.inside hs hxs ha hhead (by simp) hzs htail
    refine ⟨h, ms, hc, hrow.ascending, fun m hm => ?_⟩
    have hmem : m.span ∈ ms.map Member.span := List.mem_map_of_mem hm
    exact ⟨hrow.real _ hmem, hinside _ hmem⟩

/-- All declarations that are read are placed in the text. -/
theorem Parse.Repeats.placed {ds : Content} {more : TokenStream → Bool}
    (hs : Behind source.toList front s) (h : Parse.Repeats more (Parse.declaration ns) s ds t) :
    ds.Placed source := by
  have hread : ∀ {path d}, ds.Has path d →
      ∃ front u v, Behind source.toList front u ∧ Parse.Reading (ns ++ path) u d v := by
    intro path d hd
    obtain ⟨xs, u, v, hxs, hu⟩ := Parse.exists_reading hd hs.stop h
    have hu' := hs.reads hxs
    exact ⟨_, u, v, hu', Parse.reading_of_ok hu'.stop hu⟩
  obtain ⟨_, _, hrow⟩ := h.row (Parse.readsTokens_declaration ns) hs
  refine ⟨fun hd => ?_, hrow.ascending, fun hd => ?_, fun hd => ?_⟩
  · obtain ⟨front, u, v, hu, hreading⟩ := hread hd
    obtain ⟨xs, hxs, ha⟩ := hreading.reads hu.stop
    obtain ⟨-, -, -, hlies⟩ := hu.reaches hxs ha
    exact hlies.isReal
  · obtain ⟨front, u, v, hu, hreading⟩ := hread hd
    exact hreading.nested hu
  · obtain ⟨front, u, v, hu, hreading⟩ := hread hd
    exact hreading.encloses hu

end Placed

/-! ## Whole files -/

theorem Parse.interface_eq_ok {s t : TokenStream} {m : Interface} (hs : s.stop.kind = .eof) :
    Parse.interface s = .ok m t ↔
      Parse.Repeats (·.peek.kind != .eof) (Parse.declaration []) s m.content t ∧
        t.peek.kind = .eof := by
  have hstop : ((t.peek.kind != .eof) = false) = (t.peek.kind = .eof) := by simp
  rw [← hstop, ← Parse.manyWhile_eq_ok hs, Parse.interface, Parse.bind_eq_ok]
  constructor
  · rintro ⟨content, t, hcontent, ⟨⟩⟩
    exact hcontent
  · intro hcontent
    exact ⟨m.content, t, hcontent, rfl⟩

/-- A text that is read as a file: it has no faults, and its declarations reach to its end. -/
theorem Interface.parse_eq_ok {source : String} {m : Interface} :
    Interface.parse source = .ok m ↔ (Lexed.ofSource source).errors = [] ∧ ∃ t,
      Parse.Repeats (·.peek.kind != .eof) (Parse.declaration [])
        (.ofLexed (Lexed.ofSource source)) m.content t ∧ t.peek.kind = .eof := by
  rw [Interface.parse, parseWith_eq_ok]
  refine and_congr_right fun he => exists_congr fun t => ?_
  exact Parse.interface_eq_ok (behind_ofSource he).stop

/-- The declarations of a file are placed in its text. -/
theorem Interface.placed_of_parse {source : String} {m : Interface}
    (h : Interface.parse source = .ok m) : m.content.Placed source := by
  obtain ⟨he, t, hrun, -⟩ := Interface.parse_eq_ok.1 h
  exact hrun.placed (behind_ofSource he)

end TemplateIdl
