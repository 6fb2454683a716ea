import TemplateIdl.Proofs.Decl.Compare
import TemplateIdl.Proofs.Token.Layout

/-!
# Extent — the tokens that a declaration is read from

* `TokenStream.Reads`, the tokens between two streams;
* `Parse.Finishes`, a rule that ends with a semicolon, as those for members and for all declarations
  but includes and namespaces do;
* `Parse.Reading` and `Parse.reading_of_ok`, how declarations are read, kind by kind;
* `Parse.Reading.reads` and `Parse.reads_member`, the tokens of a declaration and of a member, which
  its place reaches over.
-/

namespace TemplateIdl

namespace TokenStream

/-! ## Tokens between streams -/

/-- The tokens `xs` stand between two streams of a file. -/
structure Reads (s : TokenStream) (xs : List Token) (t : TokenStream) : Prop where
  ahead : s.ahead = xs ++ t.ahead
  stop : t.stop = s.stop

variable {s t u : TokenStream} {xs ys : List Token}

theorem Reads.refl (s : TokenStream) : Reads s [] s := ⟨rfl, rfl⟩

theorem Reads.peek (h : Reads s xs t) (hne : xs ≠ []) : xs.head? = some s.peek := by
  obtain ⟨past, ahead, stop⟩ := s
  obtain ⟨rfl, -⟩ := h
  cases xs with
  | nil => exact absurd rfl hne
  | cons x xs => rfl

theorem Reads.trans (h : Reads s xs t) (h' : Reads t ys u) : Reads s (xs ++ ys) u :=
  ⟨by rw [h.ahead, h'.ahead, List.append_assoc], h'.stop.trans h.stop⟩

@[simp] theorem stop_advance (s : TokenStream) : s.advance.stop = s.stop :=
  (Moves.advance (.refl s.advance)).stop_eq

/-- A token that is not the end of the file is read. -/
theorem reads_advance (h : s.peek.kind ≠ s.stop.kind) : Reads s [s.peek] s.advance := by
  obtain ⟨past, ahead, stop⟩ := s
  cases ahead with
  | nil => exact absurd rfl h
  | cons t ts => exact ⟨rfl, rfl⟩

/-- Every move reads tokens, but it may end inside a shift, of which both halves or the second one
are left. -/
theorem Moves.ahead_cases (h : Moves s t) : (∃ xs, s.ahead = xs ++ t.ahead) ∨
    ∃ xs y zs, s.ahead = xs ++ y :: zs ∧
      (t.ahead = firstHalf y :: secondHalf y :: zs ∨ t.ahead = secondHalf y :: zs) := by
  refine h.keeps (I := fun t => (∃ xs, s.ahead = xs ++ t.ahead) ∨
    ∃ xs y zs, s.ahead = xs ++ y :: zs ∧
      (t.ahead = firstHalf y :: secondHalf y :: zs ∨ t.ahead = secondHalf y :: zs)) ?_ ?_
    (.inl ⟨[], rfl⟩)
  · rintro ⟨past, ahead, stop⟩ (⟨xs, hxs⟩ | ⟨xs, y, zs, hs, rfl | rfl⟩)
    · cases ahead with
      | nil => exact .inl ⟨xs, hxs⟩
      | cons t ts => exact .inl ⟨xs ++ [t], by simpa using hxs⟩
    · exact .inr ⟨xs, y, zs, hs, .inr rfl⟩
    · exact .inl ⟨xs ++ [y], by simpa using hs⟩
  · rintro ⟨past, ahead, stop⟩ (⟨xs, hxs⟩ | ⟨xs, y, zs, hs, rfl | rfl⟩)
    · cases ahead with
      | nil => exact .inl ⟨xs, hxs⟩
      | cons t ts =>
        unfold splitShift
        dsimp only
        split
        · exact .inr ⟨xs, t, ts, hxs, .inl rfl⟩
        · exact .inl ⟨xs, hxs⟩
    · exact .inr ⟨xs, y, zs, hs, .inl rfl⟩
    · exact .inr ⟨xs, y, zs, hs, .inr rfl⟩

/-- Away from closing brackets, every move reads whole tokens. -/
theorem Moves.reads (h : Moves s t) (hk : t.peek.kind ≠ .greater) : ∃ xs, Reads s xs t := by
  rcases h.ahead_cases with ⟨xs, hxs⟩ | ⟨xs, y, zs, -, ht⟩
  · exact ⟨xs, hxs, h.stop_eq⟩
  · obtain ⟨past, ahead, stop⟩ := t
    rcases ht with rfl | rfl <;> exact absurd rfl hk

/-- The tokens up to and with the next one of `t`, over which the place reaches that is merged from
those of the first one and the last one. -/
theorem Reads.reaches (h : Reads s xs t) (ht : t.peek.kind ≠ t.stop.kind) :
    Reads s (xs ++ [t.peek]) t.advance ∧
      Reaches (xs ++ [t.peek]) (s.peek.span.merge t.peek.span) := by
  have hreads := h.trans (reads_advance ht)
  exact ⟨hreads, s.peek, t.peek, hreads.peek (by simp), by simp, rfl⟩

end TokenStream

open TokenStream

/-- Where a member stands. -/
def Member.span : Member → Span
  | .ctor d => d.span
  | .method d => d.span
  | .static d => d.span
  | .special d => d.span
  | .operator d => d.span
  | .property d => d.span
  | .enumeration d => d.span

namespace Parse

variable {α β : Type} {o s t : TokenStream}

/-! ## Single tokens -/

section Single

variable {k : Kind} {b : β}

theorem expect_bind_eq_ok {f : Token → Parse β} :
    (expect k >>= f) s = .ok b t ↔ s.peek.kind = k ∧ f s.peek s.advance = .ok b t := by
  constructor
  · intro h
    obtain ⟨u, s1, hu, hb⟩ := bind_eq_ok.1 h
    obtain ⟨rfl, hk, rfl⟩ := yields_expect k u s1 hu
    exact ⟨hk, hb⟩
  · rintro ⟨hk, hb⟩
    have hread : expect k s = .ok s.peek s.advance := if_pos hk
    rw [bind_of_ok hread, hb]

theorem skip_bind_eq_ok {f : Unit → Parse β} :
    (Functor.discard (expect k) >>= f) s = .ok b t ↔
      s.peek.kind = k ∧ f () s.advance = .ok b t := by
  constructor
  · intro h
    obtain ⟨u, s1, hu, hb⟩ := bind_eq_ok.1 h
    obtain ⟨-, rfl, hk, rfl⟩ := (yields_expect k).discard u s1 hu
    exact ⟨hk, hb⟩
  · rintro ⟨hk, hb⟩
    have hread : expect k s = .ok s.peek s.advance := if_pos hk
    have hskip : (Functor.discard (expect k)) s = .ok () s.advance := by
      show EStateM.map (Function.const Token ()) (expect k) s = _
      rw [EStateM.map, hread]
    rw [bind_of_ok hskip, hb]

theorem expectIdentifier_bind_eq_ok {f : String → Parse β} :
    (expectIdentifier >>= f) s = .ok b t ↔
      s.peek.kind = .identifier ∧ f s.peek.lexeme s.advance = .ok b t := by
  constructor
  · intro h
    obtain ⟨n, s1, hn, hb⟩ := bind_eq_ok.1 h
    obtain ⟨hk, rfl, rfl⟩ := yields_expectIdentifier n s1 hn
    exact ⟨hk, hb⟩
  · rintro ⟨hk, hb⟩
    have hread : expectIdentifier s = .ok s.peek.lexeme s.advance := if_pos hk
    rw [bind_of_ok hread, hb]

end Single

/-! ## Rules that end with a semicolon -/

/-- If the rule gives a value, it has just read a semicolon. The value and the stream in front of
the semicolon satisfy `Q`. -/
def FinishesAt (o s : TokenStream) (x : Parse α) (Q : α → TokenStream → Prop) : Prop :=
  Yields x s fun a t => ∃ u, Moves o u ∧ u.peek.kind = .semicolon ∧ t = u.advance ∧ Q a u

/-- The same for all streams that are reached from `o`. -/
def Finishes (o : TokenStream) (x : Parse α) (Q : α → TokenStream → Prop) : Prop :=
  ∀ s, Moves o s → FinishesAt o s x Q

namespace Finishes

variable {x y : Parse α} {f : α → Parse β} {Q : α → TokenStream → Prop}
  {R : β → TokenStream → Prop}

theorem bind [hx : Moving x] (h : ∀ a, Finishes o (f a) R) : Finishes o (x >>= f) R := by
  intro s hs b t hrun
  obtain ⟨a, s1, ha, hb⟩ := bind_eq_ok.1 hrun
  exact h a s1 (hs.trans (hx.ok ha)) b t hb

/-- Where a value is made of what has been read, the rule still ends with the semicolon. -/
theorem pure_bind {g : α → β} (h : Finishes o x Q) (hQ : ∀ a u, Q a u → R (g a) u) :
    Finishes o (x >>= fun a => Pure.pure (g a)) R := by
  intro s hs b t hrun
  obtain ⟨a, s1, ha, hb⟩ := bind_eq_ok.1 hrun
  cases hb
  obtain ⟨u, hu, hk, rfl, hq⟩ := h s hs a _ ha
  exact ⟨u, hu, hk, rfl, hQ a u hq⟩

theorem ite {c : Prop} [Decidable c] (hx : Finishes o x Q) (hy : Finishes o y Q) :
    Finishes o (if c then x else y) Q := by
  split
  · exact hx
  · exact hy

theorem fail {kind : ParseErrorKind} {span : Span} {message : String} :
    Finishes o (Parse.fail kind span message) Q :=
  fun _ _ => Yields.fail

variable {start : Span} {make : Span → α}

/-- The end of a declaration: a semicolon, behind which its place is known. -/
theorem ending (ho : o.stop.kind = .eof) (h : ∀ u, Q (make (start.merge u.peek.span)) u) :
    Finishes o (Comparison.ending .semicolon start make) Q := by
  intro s hs a t hrun
  have hk := Comparison.ending_eq_ok hrun
  rw [Comparison.ending_of_peek hk (by rw [hs.stop_eq, ho]; decide)] at hrun
  cases hrun
  exact ⟨s, hs, hk, rfl, h s⟩

/-- A semicolon ends the rule, or something else does. -/
theorem eatEnd (ho : o.stop.kind = .eof) (h : ∀ u, Q (make (start.merge u.peek.span)) u)
    (hx : Finishes o x Q) :
    Finishes o
      (do
        if ← eat .semicolon then
          let span ← spanFrom start
          pure (make span)
        else x) Q := by
  intro s hs a t hrun
  obtain ⟨b, s1, hb, hrest⟩ := bind_eq_ok.1 hrun
  have heat := yields_eat .semicolon b s1 hb
  cases b with
  | true =>
    obtain ⟨hk, rfl⟩ := heat
    cases hrest
    rw [Comparison.previousSpan_advance (by rw [hk, hs.stop_eq, ho]; decide)]
    exact ⟨s, hs, hk, rfl, h s⟩
  | false =>
    obtain ⟨-, rfl⟩ := heat
    exact hx _ hs a t hrest

end Finishes

theorem FinishesAt.expect_bind {k : Kind} {f : Token → Parse β} {Q : β → TokenStream → Prop}
    (h : Finishes o (f o.peek) Q) : FinishesAt o o (expect k >>= f) Q := by
  intro b t hrun
  exact h _ (.advance (.refl _)) b t (expect_bind_eq_ok.1 hrun).2

/-! ## Enumerations and members -/

-- continuations are searched for what they do to a stream, and some have many steps
set_option synthInstance.maxSize 1000

/-- The place reaches from the next token of `o` to the semicolon. -/
def Closed (o : TokenStream) (a : Span) (u : TokenStream) : Prop :=
  a = o.peek.span.merge u.peek.span

theorem finishesAt_enumeration (ho : o.stop.kind = .eof) (ns : List String) :
    FinishesAt o o (enumeration ns) fun d u => Closed o d.span u := by
  have hname : ∀ isScoped : Bool, Finishes o (do
      let name ← expectIdentifier
      discard (expect .leftBrace)
      let names ← enumerators
      discard (expect .rightBrace)
      discard (expect .semicolon)
      let span ← spanFrom o.peek.span
      pure (⟨name, names, isScoped, ns, span⟩ : EnumDecl)) fun d u => Closed o d.span u := by
    intro isScoped
    refine .bind fun _ => .bind fun _ => .bind fun _ => .bind fun _ => ?_
    exact .ending ho fun _ => rfl
  exact .expect_bind (.bind fun _ => .ite (.bind hname) (.bind hname))

section Members

variable {h : ClassHead} {template : Option Template}

/-- A member that reaches to the semicolon. -/
abbrev ClosedMember (o : TokenStream) (d : Member) (u : TokenStream) : Prop := Closed o d.span u

theorem finishes_methodRest (ho : o.stop.kind = .eof) (result : ReturnType) (name : String) :
    Finishes o (methodRest h template o.peek.span result name) (ClosedMember o) := by
  refine .bind fun _ => .bind fun _ => ?_
  exact .ending ho fun _ => rfl

theorem finishes_staticRest (ho : o.stop.kind = .eof) :
    Finishes o (staticRest h template o.peek.span) (ClosedMember o) := by
  refine .bind fun _ => .bind fun _ => .bind fun _ => ?_
  exact .ending ho fun _ => rfl

theorem finishes_ctorRest (ho : o.stop.kind = .eof) (t : Token) :
    Finishes o (ctorRest h template o.peek.span t) (ClosedMember o) := by
  unfold ctorRest
  split
  · refine .ite .fail (.bind fun _ => ?_)
    exact .ending ho fun _ => rfl
  · refine .ite (.bind fun _ => ?_) .fail
    exact .ending ho fun _ => rfl

theorem finishes_templatableMember (ho : o.stop.kind = .eof) :
    Finishes o (templatableMember h template o.peek.span) (ClosedMember o) := by
  refine .bind fun _ => .ite (finishes_staticRest ho) (.bind fun t => .bind fun _ => .ite ?_ ?_)
  · exact .bind fun _ => finishes_ctorRest ho t
  · exact .bind fun result => .bind fun name => finishes_methodRest ho result name

theorem finishes_typedMember (ho : o.stop.kind = .eof) :
    Finishes o (typedMember h o.peek.span) (ClosedMember o) := by
  refine .bind fun type => .bind fun _ => .ite ?_ (.bind fun name => .bind fun _ => .ite ?_ ?_)
  · refine .bind fun _ => .bind fun _ => .bind fun _ => ?_
    exact .ending ho fun _ => rfl
  · exact finishes_methodRest ho (.ofType type) name
  · refine .bind fun _ => ?_
    exact .ending ho fun _ => rfl

/-- A member reaches from its first token to its semicolon. -/
theorem finishesAt_member (ho : o.stop.kind = .eof) :
    FinishesAt o o (member h) (ClosedMember o) := by
  refine Yields.peek_bind ?_
  have hrefl := Moves.refl o
  split
  · exact Yields.throw
  · refine (finishesAt_enumeration ho h.namespaces).bind fun d t hd => ?_
    obtain ⟨u, hu⟩ := hd
    exact .pure ⟨u, hu⟩
  · exact Finishes.bind (fun _ => finishes_templatableMember ho) o hrefl
  · exact finishes_templatableMember ho o hrefl
  · refine Finishes.bind (fun _ => .ite ?_ ?_) o hrefl
    · exact finishes_templatableMember ho
    · exact finishes_typedMember ho
  · exact finishes_typedMember ho o hrefl
  · exact finishes_typedMember ho o hrefl
  · exact Finishes.ite (finishes_typedMember ho) .fail o hrefl

end Members

/-! ## Classes -/

/-- The members of a class that is read from `o` up to the semicolon in front of `u`. -/
def MembersRead (o : TokenStream) (c : ClassDecl) (u : TokenStream) : Prop :=
  ∃ h ms v w, Moves o v ∧ v.peek.kind = .leftBrace ∧
    Repeats (·.peek.kind != .rightBrace) (member h) v.advance ms w ∧
    w.peek.kind = .rightBrace ∧ Moves w.advance u ∧ c = h.close ms c.span

theorem finishes_classBody (ho : o.stop.kind = .eof) (h : ClassHead) :
    Finishes o (classBody h o.peek.span) fun c u => Closed o c.span u ∧ MembersRead o c u := by
  intro v hv c t hrun
  obtain ⟨hleft, hrun⟩ := skip_bind_eq_ok.1 hrun
  obtain ⟨ms, w, hms, hrun⟩ := bind_eq_ok.1 hrun
  obtain ⟨hright, hrun⟩ := skip_bind_eq_ok.1 hrun
  have hadvance : Moves v v.advance := .advance (.refl _)
  obtain ⟨hrepeats, -⟩ := (manyWhile_eq_ok ((hv.trans hadvance).stop_eq ▸ ho)).1 hms
  have hw : Moves v.advance w := hrepeats.moves
  have hback : Moves o w.advance := (hv.trans hadvance).trans (hw.trans (.advance (.refl _)))
  have hend : Finishes w.advance (Comparison.ending .semicolon o.peek.span (h.close ms))
      fun c u => Closed o c.span u ∧ c = h.close ms c.span :=
    .ending (hback.stop_eq ▸ ho) fun _ => ⟨rfl, rfl⟩
  obtain ⟨u, hu, hk, rfl, hspan, hc⟩ := hend _ (.refl _) c t hrun
  exact ⟨u, hback.trans hu, hk, rfl, hspan, h, ms, v, w, hv, hleft, hrepeats, hright, hu, hc⟩

/-! ## Declarations -/

/-- The declarations inside a declaration. -/
def content : Declaration → List Declaration
  | .space _ content _ => content
  | _ => []

/-- A declaration that was read from `o` up to the semicolon in front of `u`. -/
structure DeclarationRead (o : TokenStream) (d : Declaration) (u : TokenStream) : Prop where
  closed : Closed o d.span u
  content : content d = []
  members : ∀ c, d = .cls c → MembersRead o c u

section Simple

variable {ns : List String} {template : Option Template}

theorem finishes_classOrForward (ho : o.stop.kind = .eof) :
    Finishes o (classOrForward ns template o.peek.span) (DeclarationRead o) := by
  refine .bind fun _ => .bind fun _ => .bind fun _ => .bind fun _ => .bind fun _ => ?_
  refine .eatEnd ho (fun _ => ⟨rfl, rfl, nofun⟩) (.ite ?_ .fail)
  refine (finishes_classBody ho _).pure_bind fun c u hc => ⟨hc.1, rfl, ?_⟩
  rintro _ ⟨⟩
  exact hc.2

theorem finishes_functionOrVariable (ho : o.stop.kind = .eof) :
    Finishes o (functionOrVariable ns template o.peek.span) (DeclarationRead o) := by
  refine .bind fun _ => .bind fun _ => .bind fun _ => .ite (.bind fun _ => ?_) (.bind fun _ => ?_)
  · exact .ending ho fun _ => ⟨rfl, rfl, nofun⟩
  · exact .ending ho fun _ => ⟨rfl, rfl, nofun⟩

theorem finishesAt_typedef (ho : o.stop.kind = .eof) :
    FinishesAt o o (typedef ns) fun d u => Closed o d.span u := by
  refine .expect_bind (.bind fun _ => .bind fun _ => .ite .fail (.ite .fail (.bind fun _ => ?_)))
  exact .ending ho fun _ => rfl

/-- Declarations that end with a semicolon. -/
theorem finishesAt_declarationRule {self : List String → Parse Declaration}
    (ho : o.stop.kind = .eof) (hinclude : o.peek.kind ≠ .includeDirective)
    (hspace : o.peek.kind ≠ .kwNamespace) :
    FinishesAt o o (declarationRule self ns) (DeclarationRead o) := by
  refine Yields.peek_bind ?_
  have hrefl := Moves.refl o
  split
  · next hk => exact absurd hk hinclude
  · next hk => exact absurd hk hspace
  · refine (finishesAt_typedef ho).bind fun d t hd => ?_
    obtain ⟨u, hu, hk, ht, hclosed⟩ := hd
    exact .pure ⟨u, hu, hk, ht, hclosed, rfl, by rintro _ ⟨⟩⟩
  · refine (finishesAt_enumeration ho ns).bind fun d t hd => ?_
    obtain ⟨u, hu, hk, ht, hclosed⟩ := hd
    exact .pure ⟨u, hu, hk, ht, hclosed, rfl, by rintro _ ⟨⟩⟩
  · exact finishes_classOrForward ho o hrefl
  · exact finishes_classOrForward ho o hrefl
  · refine Finishes.bind (fun _ => .bind fun _ => .ite ?_ ?_) o hrefl
    · exact finishes_classOrForward ho
    · exact finishes_functionOrVariable ho
  · exact finishes_functionOrVariable ho o hrefl
  · exact finishes_functionOrVariable ho o hrefl
  · exact finishes_functionOrVariable ho o hrefl
  · exact Yields.throw
  · exact Finishes.ite (finishes_functionOrVariable ho) .fail o hrefl

end Simple

/-! ### Includes and namespaces -/

theorem inclusion_eq_ok {d : IncludeDecl} : inclusion s = .ok d t ↔
    s.peek.kind = .includeDirective ∧ ∃ path, includePath? s.peek.lexeme.toList = some path ∧
      d = ⟨String.ofList path, s.peek.span⟩ ∧ t = s.advance := by
  rw [inclusion, expect_bind_eq_ok]
  refine and_congr_right fun _ => ?_
  cases includePath? s.peek.lexeme.toList with
  | none => exact ⟨by rintro ⟨⟩, by rintro ⟨_, ⟨⟩, -⟩⟩
  | some path =>
    simp only [Option.some.injEq, exists_eq_left']
    constructor
    · rintro ⟨⟩
      exact ⟨rfl, rfl⟩
    · rintro ⟨rfl, rfl⟩
      rfl

/-- A namespace is its name in front of braces, with declarations between them. -/
theorem space_eq_ok {ns : List String} {d : Declaration} (hs : s.stop.kind = .eof) :
    space declaration ns s = .ok d t ↔
      s.peek.kind = .kwNamespace ∧ s.advance.peek.kind = .identifier ∧
      s.advance.advance.peek.kind = .leftBrace ∧ ∃ content w,
        Repeats (·.peek.kind != .rightBrace) (declaration (ns ++ [s.advance.peek.lexeme]))
          s.advance.advance.advance content w ∧
        w.peek.kind = .rightBrace ∧ t = w.advance ∧
        d = .space s.advance.peek.lexeme content (s.peek.span.merge w.peek.span) := by
  rw [space, expect_bind_eq_ok, expectIdentifier_bind_eq_ok, skip_bind_eq_ok]
  refine and_congr_right fun _ => and_congr_right fun _ => and_congr_right fun _ => ?_
  have hstop : s.advance.advance.advance.stop.kind = .eof := by
    rw [stop_advance, stop_advance, stop_advance, hs]
  have hend : ∀ w : TokenStream, w.stop.kind = .eof → ∀ content, (do
      discard (expect .rightBrace)
      let span ← spanFrom s.peek.span
      pure (Declaration.space s.advance.peek.lexeme content span)) w = .ok d t ↔
        w.peek.kind = .rightBrace ∧ t = w.advance ∧
        d = .space s.advance.peek.lexeme content (s.peek.span.merge w.peek.span) := by
    intro w hw content
    rw [skip_bind_eq_ok]
    refine and_congr_right fun hk => ?_
    have hspan := Comparison.previousSpan_advance (s := w) (by rw [hk, hw]; decide)
    rw [← hspan]
    constructor
    · rintro ⟨⟩
      exact ⟨rfl, rfl⟩
    · rintro ⟨rfl, rfl⟩
      rfl
  constructor
  · intro h
    obtain ⟨content, w, hcontent, h⟩ := bind_eq_ok.1 h
    obtain ⟨hrepeats, -⟩ := (manyWhile_eq_ok hstop).1 hcontent
    exact ⟨content, w, hrepeats, (hend w (hrepeats.moves.stop_eq ▸ hstop) content).1 h⟩
  · rintro ⟨content, w, hrepeats, h⟩
    have hmore : (w.peek.kind != .rightBrace) = false := by simp [h.1]
    rw [bind_of_ok ((manyWhile_eq_ok hstop).2 ⟨hrepeats, hmore⟩)]
    exact (hend w (hrepeats.moves.stop_eq ▸ hstop) content).2 h

/-- The tokens in front of the content of a namespace. -/
theorem reads_spaceHead (hs : s.stop.kind = .eof) (hk : s.peek.kind = .kwNamespace)
    (hname : s.advance.peek.kind = .identifier)
    (hbrace : s.advance.advance.peek.kind = .leftBrace) :
    Reads s [s.peek, s.advance.peek, s.advance.advance.peek] s.advance.advance.advance := by
  have h1 := reads_advance (s := s) (by rw [hk, hs]; decide)
  have h2 := reads_advance (s := s.advance) (by rw [hname, stop_advance, hs]; decide)
  have h3 := reads_advance (s := s.advance.advance)
    (by rw [hbrace, stop_advance, stop_advance, hs]; decide)
  exact h1.trans (h2.trans h3)

/-- How a declaration is read. -/
inductive Reading (ns : List String) (s : TokenStream) : Declaration → TokenStream → Prop
  | inclusion {d : IncludeDecl} (hk : s.peek.kind = .includeDirective) (hd : d.span = s.peek.span) :
      Reading ns s (.inclusion d) s.advance
  | space {content : List Declaration} {w : TokenStream} (hk : s.peek.kind = .kwNamespace)
      (hname : s.advance.peek.kind = .identifier)
      (hbrace : s.advance.advance.peek.kind = .leftBrace)
      (hcontent : Repeats (·.peek.kind != .rightBrace)
        (declaration (ns ++ [s.advance.peek.lexeme])) s.advance.advance.advance content w)
      (hend : w.peek.kind = .rightBrace) :
      Reading ns s
        (.space s.advance.peek.lexeme content (s.peek.span.merge w.peek.span)) w.advance
  | simple {d : Declaration} {u : TokenStream} (hinclude : s.peek.kind ≠ .includeDirective)
      (hspace : s.peek.kind ≠ .kwNamespace) (hu : Moves s u) (hk : u.peek.kind = .semicolon)
      (hd : DeclarationRead s d u) : Reading ns s d u.advance

theorem reading_of_ok {ns : List String} {d : Declaration} (hs : s.stop.kind = .eof)
    (h : declaration ns s = .ok d t) : Reading ns s d t := by
  rw [declaration_step ns hs] at h
  by_cases hinclude : s.peek.kind = .includeDirective
  · rw [Comparison.declarationRule_include hinclude] at h
    obtain ⟨d, s1, hd, h⟩ := bind_eq_ok.1 h
    obtain ⟨-, path, -, rfl, rfl⟩ := inclusion_eq_ok.1 hd
    cases h
    exact .inclusion hinclude rfl
  by_cases hspace : s.peek.kind = .kwNamespace
  · rw [Comparison.declarationRule_space hspace, space_eq_ok hs] at h
    obtain ⟨-, hname, hbrace, content, w, hcontent, hend, rfl, rfl⟩ := h
    exact .space hspace hname hbrace hcontent hend
  · obtain ⟨u, hu, hk, rfl, hd⟩ := finishesAt_declarationRule hs hinclude hspace d t h
    exact .simple hinclude hspace hu hk hd

/-! ### The tokens that are read -/

theorem Closed.reads {a : Span} {u : TokenStream} (hs : s.stop.kind = .eof) (ha : Closed s a u)
    (hu : Moves s u) (hk : u.peek.kind = .semicolon) :
    ∃ xs, Reads s (xs ++ [u.peek]) u.advance ∧ Reaches (xs ++ [u.peek]) a := by
  obtain ⟨xs, hxs⟩ := hu.reads (by rw [hk]; decide)
  rw [ha]
  exact ⟨xs, hxs.reaches (by rw [hk, hu.stop_eq, hs]; decide)⟩

/-- The place of a member reaches over its tokens. -/
theorem reads_member {h : ClassHead} (hs : s.stop.kind = .eof) :
    Yields (member h) s fun d t => ∃ xs, Reads s xs t ∧ Reaches xs d.span := by
  intro d t hrun
  obtain ⟨u, hu, hk, rfl, hclosed⟩ := finishesAt_member hs d t hrun
  obtain ⟨xs, hxs⟩ := hclosed.reads hs hu hk
  exact ⟨_, hxs⟩

/-- The place of a declaration reaches over its tokens. -/
theorem Reading.reads {ns : List String} {d : Declaration} (hs : s.stop.kind = .eof)
    (h : Reading ns s d t) : ∃ xs, Reads s xs t ∧ Reaches xs d.span := by
  cases h with
  | @inclusion d hk hd =>
    have := (Reads.refl s).reaches (by rw [hk, hs]; decide)
    rw [Span.merge_self, ← hd] at this
    exact ⟨_, this⟩
  | space _ _ _ hcontent hend =>
    have hw : Moves s _ := .advance (.advance (.advance hcontent.moves))
    obtain ⟨xs, hxs⟩ := hw.reads (by rw [hend]; decide)
    exact ⟨_, hxs.reaches (by rw [hend, hw.stop_eq, hs]; decide)⟩
  | simple _ _ hu hk hd =>
    obtain ⟨xs, hxs⟩ := hd.closed.reads hs hu hk
    exact ⟨_, hxs⟩

end Parse

end TemplateIdl
