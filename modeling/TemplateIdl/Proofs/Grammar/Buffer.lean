import TemplateIdl.Proofs.Grammar.Extent

/-!
# Buffer — all tokens in one row

A stream may also be seen as one row of tokens and the number of those that have been read. Reading
goes on in the row, and a `>>` that is split makes it longer. Rules are used on one stream again
and again, whatever has failed before.

* `TokenStream.getElem?_buffer_nth`, `TokenStream.getElem?_buffer_previous`,
  `TokenStream.position_advance` and `TokenStream.buffer_splitShift`, what is looked up in the row
  and done to it;
* `TokenStream.CutFrom`, a row of tokens that stand in a text, one behind the other, which reading
  and splitting keep (`TokenStream.CutFrom.moves`);
* `Call`, the use of a rule for types, and `TokenStream.ofCalls`, the stream behind many of them;
* `TokenStream.buffered_ofCalls`, the row is sound at all times, and no look-up misses it.
-/

namespace TemplateIdl

namespace TokenStream

/-! ## Rows and positions -/

section Row

variable (s : TokenStream)

theorem buffer_eq_append : s.buffer = s.past.reverse ++ (s.ahead ++ [s.stop]) := by
  simp [buffer]

theorem length_buffer : s.buffer.length = s.position + s.ahead.length + 1 := by
  simp [buffer, position, Nat.add_assoc]

/-- What has not been read yet. -/
theorem drop_position : s.buffer.drop s.position = s.ahead ++ [s.stop] := by
  rw [buffer_eq_append]
  exact List.drop_left' List.length_reverse

theorem getElem?_buffer_add (n : Nat) :
    s.buffer[s.position + n]? = (s.ahead ++ [s.stop])[n]? := by
  rw [← drop_position, List.getElem?_drop]

/-- The token `n` places ahead stands that much behind the position, unless the row ends before. -/
theorem getElem?_buffer_nth (n : Nat) :
    s.buffer[min (s.position + n) (s.buffer.length - 1)]? = some (s.nth n) := by
  have hlength := s.length_buffer
  by_cases hn : n < s.ahead.length
  · have hmin : min (s.position + n) (s.buffer.length - 1) = s.position + n := by omega
    rw [hmin, getElem?_buffer_add, List.getElem?_append_left hn, nth, List.getElem?_eq_getElem hn]
    rfl
  · have hmin : min (s.position + n) (s.buffer.length - 1) = s.position + s.ahead.length := by omega
    have hnone : s.ahead[n]? = none := List.getElem?_eq_none (by omega)
    rw [hmin, getElem?_buffer_add, List.getElem?_concat_length, nth, hnone]
    rfl

/-- The token read last stands in front of the position. At the beginning there is none, and the
first one is taken. -/
theorem getElem?_buffer_previous :
    s.buffer[s.position - 1]?.map Token.span = some s.previousSpan := by
  obtain ⟨past, ahead, stop⟩ := s
  cases past with
  | nil =>
    have hfirst := getElem?_buffer_nth ⟨[], ahead, stop⟩ 0
    rw [show min (position ⟨[], ahead, stop⟩ + 0) _ = 0 from Nat.zero_min _] at hfirst
    show Option.map Token.span (buffer ⟨[], ahead, stop⟩)[0]? = _
    rw [hfirst]
    rfl
  | cons t past =>
    have hindex : position ⟨t :: past, ahead, stop⟩ - 1 = past.reverse.length := by
      simp [position]
    rw [hindex, buffer_eq_append, List.reverse_cons, List.append_assoc,
      List.getElem?_append_right (Nat.le_refl _), Nat.sub_self]
    rfl

end Row

variable {s t : TokenStream}

/-- Reading goes on by one token and stays at the end of the file. -/
theorem position_advance (hs : s.stop.kind = .eof) (h : ∀ t ∈ s.ahead, t.kind ≠ .eof) :
    s.advance.position = if s.peek.kind = .eof then s.position else s.position + 1 := by
  obtain ⟨past, ahead, stop⟩ := s
  cases ahead with
  | nil => exact (if_pos hs).symm
  | cons t ts => exact (if_neg (h t List.mem_cons_self)).symm

theorem insertIdx_behind {α : Type} (xs ys : List α) (y z : α) :
    (xs ++ y :: ys).insertIdx (xs.length + 1) z = xs ++ y :: z :: ys := by
  induction xs with
  | nil => rfl
  | cons x xs ih => rw [List.cons_append, List.length_cons, List.insertIdx_succ_cons, ih]; rfl

/-- Of a shift the first half takes its place in the row and the second one is put behind it. -/
theorem buffer_splitShift (hk : s.peek.kind = .greaterGreater) (hs : s.stop.kind = .eof) :
    s.splitShift.buffer =
      (s.buffer.set s.position (firstHalf s.peek)).insertIdx (s.position + 1)
        (secondHalf s.peek) := by
  obtain ⟨past, ahead, stop⟩ := s
  cases ahead with
  | nil => exact absurd (hs.symm.trans hk) (by decide)
  | cons t ts =>
    have hsplit : splitShift ⟨past, t :: ts, stop⟩ =
        ⟨past, firstHalf t :: secondHalf t :: ts, stop⟩ := if_pos hk
    have hposition : position ⟨past, t :: ts, stop⟩ = past.reverse.length := by simp [position]
    rw [hsplit, buffer_eq_append, buffer_eq_append, hposition,
      List.set_append_right _ _ (Nat.le_refl _), Nat.sub_self]
    exact (insertIdx_behind past.reverse (ts ++ [stop]) (firstHalf t) (secondHalf t)).symm

end TokenStream

/-! ## Tokens that stand in a text -/

/-- The token covers its text where it stands. -/
def Token.Stands (cs : List Char) (t : Token) : Prop :=
  ∃ front back, cs = front ++ (t.lexeme.toList ++ back) ∧ t.span.Covers front t.lexeme.toList

namespace Token.Stands

open TokenStream

variable {cs : List Char} {source : String} {t : Token}

theorem of_covers {body : List Char} (front back : List Char)
    (hcs : cs = front ++ (body ++ back)) (hlexeme : t.lexeme.toList = body)
    (hc : t.span.Covers front body) : t.Stands cs := by
  subst hlexeme
  exact ⟨front, back, hcs, hc⟩

theorem liesIn (h : t.Stands cs) : Span.LiesIn cs t.span := by
  obtain ⟨front, back, hcs, hc⟩ := h
  exact ⟨front, _, back, hcs, hc⟩

theorem slice (h : t.Stands source.toList) : t.span.slice source = some t.lexeme := by
  obtain ⟨front, back, hcs, hc⟩ := h
  rw [Span.slice, hcs, hc.slice?, Option.map_some, String.ofList_toList]

/-- The halves of a shift stand in its place, one behind the other. -/
theorem halves (h : t.Stands cs) (hlexeme : t.lexeme = ">>") :
    (firstHalf t).Stands cs ∧ (secondHalf t).Stands cs ∧
      (firstHalf t).span.stop = (secondHalf t).span.offset ∧
      (secondHalf t).span.stop = t.span.stop := by
  obtain ⟨front, back, hcs, hc⟩ := h
  have htext : t.lexeme.toList = ['>'] ++ ['>'] := by
    rw [hlexeme]
    decide
  have hhalf : ">".toList = ['>'] := by decide
  rw [htext] at hcs hc
  have hlen : t.span.len = 2 := hc.len
  refine ⟨of_covers front (['>'] ++ back) ?_ hhalf hc.head,
    of_covers (front ++ ['>']) back ?_ hhalf (hc.tail (by decide)), rfl, ?_⟩
  · rw [hcs, List.append_assoc]
  · rw [hcs]
    simp
  · show t.span.offset + 1 + 1 = t.span.offset + t.span.len
    omega

end Token.Stands

namespace TokenStream

/-- The row of tokens is cut from a text: its tokens stand there one behind the other, and only the
last one is the end. -/
structure CutFrom (cs : List Char) (s : TokenStream) : Prop where
  stop : s.stop.kind = .eof
  kinds : ∀ t ∈ s.past.reverse ++ s.ahead, t.kind ≠ .eof
  shifts : ∀ t ∈ s.ahead, t.kind = .greaterGreater → t.lexeme = ">>"
  stands : ∀ t ∈ s.buffer, t.Stands cs
  ascending : Span.Ascending (s.buffer.map Token.span)

namespace CutFrom

variable {cs : List Char} {s t : TokenStream}

/-- Reading a token leaves the row as it is. -/
theorem advance (h : CutFrom cs s) : CutFrom cs s.advance := by
  obtain ⟨past, ahead, stop⟩ := s
  cases ahead with
  | nil => exact h
  | cons t ts =>
    have hbuffer : (TokenStream.advance ⟨past, t :: ts, stop⟩).buffer =
        buffer ⟨past, t :: ts, stop⟩ := buffer_advance _
    refine ⟨h.stop, ?_, fun u hu => h.shifts u (List.mem_cons_of_mem t hu), ?_, ?_⟩
    · have hkinds := h.kinds
      simpa using hkinds
    · rw [hbuffer]
      exact h.stands
    · rw [hbuffer]
      exact h.ascending

/-- Splitting a shift puts two tokens in the place of one. -/
theorem split (h : CutFrom cs s) : CutFrom cs s.splitShift := by
  obtain ⟨past, ahead, stop⟩ := s
  cases ahead with
  | nil => exact h
  | cons t ts =>
    unfold splitShift
    dsimp only
    split
    · next hk =>
      obtain ⟨hstop, hkinds, hshifts, hstands, hascending⟩ := h
      rw [buffer_eq_append] at hstands hascending
      have hin : t ∈ past.reverse ++ (t :: ts ++ [stop]) := by simp
      obtain ⟨hfirst, hsecond, hbetween, hend⟩ :=
        (hstands t hin).halves (hshifts t List.mem_cons_self hk)
      refine ⟨hstop, ?_, ?_, ?_, ?_⟩
      · simp only [List.forall_mem_append, List.forall_mem_cons] at hkinds ⊢
        exact ⟨hkinds.1, nofun, nofun, hkinds.2.2⟩
      · simp only [List.forall_mem_cons] at hshifts ⊢
        exact ⟨nofun, nofun, hshifts.2⟩
      · rw [buffer_eq_append]
        simp only [List.cons_append, List.forall_mem_append, List.forall_mem_cons] at hstands ⊢
        exact ⟨hstands.1, hfirst, hsecond, hstands.2.2⟩
      · rw [buffer_eq_append]
        have hstart : (firstHalf t).span.offset = t.span.offset := rfl
        simp only [Span.Ascending, List.map_append, List.map_cons, List.cons_append,
          List.pairwise_append, List.pairwise_cons, List.forall_mem_cons] at hascending ⊢
        obtain ⟨hpast, ⟨hlater, hrest⟩, hacross⟩ := hascending
        refine ⟨hpast, ⟨⟨hbetween.le, ?_⟩, ?_, hrest⟩, ?_⟩
        · intro u hu
          have hle := hlater u hu
          have hlt : (firstHalf t).span.stop ≤ (secondHalf t).span.stop :=
            hbetween.le.trans (Nat.le_add_right _ _)
          omega
        · intro u hu
          rw [hend]
          exact hlater u hu
        · intro u hu
          obtain ⟨hbefore, hothers⟩ := hacross u hu
          have hle : t.span.offset ≤ (secondHalf t).span.offset := Nat.le_add_right _ 1
          exact ⟨hbefore, hbefore.trans hle, hothers⟩
    · exact h

theorem moves (h : CutFrom cs s) (hm : Moves s t) : CutFrom cs t :=
  hm.keeps (fun _ => advance) (fun _ => split) h

end CutFrom

/-- The tokens of a text are cut from it, also where some of the text is no token. -/
theorem cutFrom_ofSource (source : String) :
    CutFrom source.toList (.ofLexed (Lexed.ofSource source)) := by
  have hpartitions := Lexed.partitions_ofSource source
  have hlaid := laid_ofSource source
  obtain ⟨-, hlexeme, hcovers⟩ := hlaid.stop_eq
  have hkept : ∀ t ∈ (ofLexed (Lexed.ofSource source)).ahead,
      t ∈ (Lexed.ofSource source).tokens ∧ t.kind ≠ .error := by
    intro t ht
    obtain ⟨hmem, hk⟩ := List.mem_filter.1 ht
    exact ⟨hmem, by simpa using hk⟩
  refine ⟨hpartitions.stop.1, ?_, ?_, ?_, ?_⟩
  · intro t ht
    exact (hpartitions.pos t (hkept t ht).1).1
  · intro t ht hk
    have hproper : isTokenText t.kind t.lexeme = true :=
      Lexed.proper_startingAt _ _ _ t (hkept t ht).1 (hkept t ht).2
    exact eq_of_isTokenText hproper (by rw [hk]; rfl)
  · intro t ht
    rcases List.mem_append.1 ht with ht | ht
    · obtain ⟨front, body, back, hcs, -, -, hc, hbody⟩ := hlaid.covers t (hkept t ht).1
      have htext : t.lexeme.toList = body := by
        rw [hbody (hkept t ht).2, String.toList_ofList]
      exact .of_covers front back hcs htext hc
    · have hempty : (Lexed.ofSource source).stop.lexeme.toList = [] := by
        rw [hlexeme]
        rfl
      rw [List.mem_singleton.1 ht]
      exact .of_covers source.toList [] (by simp) hempty hcovers
  · have hsub : (ofLexed (Lexed.ofSource source)).buffer.Sublist
        ((Lexed.ofSource source).tokens ++ [(Lexed.ofSource source).stop]) :=
      List.filter_sublist.append (List.Sublist.refl _)
    exact List.pairwise_map.2 (hpartitions.ascending.sublist hsub)

/-! ## Rules used again and again -/

/-- What a caller has to know of the row: its last token is its only end, the position never passes
it, and no look-up and no change is out of range. -/
structure Buffered (source : String) (s : TokenStream) : Prop where
  last : s.buffer.getLast? = some s.stop ∧ s.stop.kind = .eof
  others : ∀ t ∈ s.buffer.dropLast, t.kind ≠ .eof
  position_le : s.position ≤ s.buffer.length - 1
  lexemes : ∀ t ∈ s.buffer, t.span.slice source = some t.lexeme
  ascending : Span.Ascending (s.buffer.map Token.span)
  nth : ∀ n, s.buffer[min (s.position + n) (s.buffer.length - 1)]? = some (s.nth n)
  previous : s.buffer[s.position - 1]?.map Token.span = some s.previousSpan
  advance : s.advance.buffer = s.buffer ∧
    s.advance.position = if s.peek.kind = .eof then s.position else s.position + 1
  /-- The first half takes the place of the shift, and the second one is put behind it. -/
  split : s.peek.kind = .greaterGreater → s.position + 1 < s.buffer.length ∧
    s.splitShift.position = s.position ∧ s.splitShift.buffer =
      (s.buffer.set s.position (firstHalf s.peek)).insertIdx (s.position + 1) (secondHalf s.peek)

theorem position_splitShift (s : TokenStream) : s.splitShift.position = s.position := by
  obtain ⟨past, ahead, stop⟩ := s
  unfold splitShift
  cases ahead with
  | nil => rfl
  | cons t ts =>
    dsimp only
    split <;> rfl

theorem CutFrom.buffered {source : String} {s : TokenStream} (h : CutFrom source.toList s) :
    Buffered source s := by
  have hlength := s.length_buffer
  have hinit : s.buffer.dropLast = s.past.reverse ++ s.ahead := List.dropLast_concat
  refine ⟨⟨List.getLast?_concat, h.stop⟩, hinit ▸ h.kinds, by omega,
    fun t ht => (h.stands t ht).slice, h.ascending, s.getElem?_buffer_nth,
    s.getElem?_buffer_previous, ⟨s.buffer_advance, ?_⟩, fun hk => ⟨?_, ?_, ?_⟩⟩
  · exact position_advance h.stop fun t ht => h.kinds t (List.mem_append_right _ ht)
  · -- the shift is not the end, so the end stands behind it
    have hahead : s.ahead ≠ [] := ahead_ne_nil (by rw [hk, h.stop]; decide)
    have hpos : 0 < s.ahead.length := List.length_pos_iff.2 hahead
    omega
  · exact s.position_splitShift
  · exact buffer_splitShift hk h.stop

/-- The position never goes back. -/
theorem Moves.position_le {s t : TokenStream} (h : Moves s t) : s.position ≤ t.position := by
  refine h.keeps (I := fun u => s.position ≤ u.position) ?_ ?_ (Nat.le_refl _)
  · intro u hu
    refine hu.trans ?_
    obtain ⟨past, ahead, stop⟩ := u
    cases ahead with
    | nil => exact Nat.le_refl _
    | cons t ts => exact Nat.le_succ _
  · intro u hu
    rwa [position_splitShift]

end TokenStream

open TokenStream

/-- A type or a return type is read. -/
inductive Call where
  | type | returnType
deriving DecidableEq

/-- The stream behind a call, also if it fails. -/
def Call.leaves : Call → TokenStream → TokenStream
  | type => Parse.leaves Parse.typeUse
  | returnType => Parse.leaves Parse.returnType

theorem Call.moves (call : Call) (s : TokenStream) : Moves s (call.leaves s) := by
  cases call with
  | type => exact Parse.moving_typeUse.moves s
  | returnType => exact Parse.moving_returnType.moves s

namespace TokenStream

/-- The stream of a text behind several calls, whichever of them have failed. -/
def ofCalls (source : String) (calls : List Call) : TokenStream :=
  calls.foldl (fun s call => call.leaves s) (.ofLexed (Lexed.ofSource source))

theorem ofCalls_append_singleton (source : String) (calls : List Call) (call : Call) :
    ofCalls source (calls ++ [call]) = call.leaves (ofCalls source calls) := by
  rw [ofCalls, List.foldl_append]
  rfl

theorem moves_ofCalls (source : String) (calls : List Call) :
    Moves (.ofLexed (Lexed.ofSource source)) (ofCalls source calls) := by
  induction calls using List.reverseRecOn with
  | nil => exact .refl _
  | append_singleton calls call ih =>
    rw [ofCalls_append_singleton]
    exact ih.trans (call.moves _)

/-- **The row of tokens is sound at all times.** Whichever calls were made on a stream of a text,
and whichever of them failed, also on the way through one more call, the row of tokens is that of
`Buffered`, and the position has not gone back. -/
theorem buffered_ofCalls (source : String) (calls : List Call) :
    Buffered source (ofCalls source calls) ∧ ∀ (call : Call) (s : TokenStream),
      Moves (ofCalls source calls) s → Moves s (ofCalls source (calls ++ [call])) →
        Buffered source s ∧ (ofCalls source calls).position ≤ s.position ∧
          s.position ≤ (ofCalls source (calls ++ [call])).position := by
  have hcut := (cutFrom_ofSource source).moves (moves_ofCalls source calls)
  refine ⟨hcut.buffered, ?_⟩
  intro call s hs hcall
  exact ⟨(hcut.moves hs).buffered, hs.position_le, hcall.position_le⟩

/-- Behind text that is no token, the first call splits a shift and leaves its second half, at which
the second call fails. -/
theorem splitRow_buffered :
    (ofCalls "$ A<int>>" []).buffer.map Token.lexeme = ["A", "<", "int", ">>", ""] ∧
    (ofCalls "$ A<int>>" [.type]).buffer.map Token.lexeme = ["A", "<", "int", ">", ">", ""] ∧
    (ofCalls "$ A<int>>" [.type]).position = 4 ∧
    ofCalls "$ A<int>>" ([.type] ++ [.returnType]) = ofCalls "$ A<int>>" [.type] ∧
    Moves (ofCalls "$ A<int>>" []) (ofCalls "$ A<int>>" [.type]) ∧
    Buffered "$ A<int>>" (ofCalls "$ A<int>>" [.type]) := by
  have hmoves : Moves (ofCalls "$ A<int>>" []) (ofCalls "$ A<int>>" [.type]) := Call.moves .type _
  have hbuffered := (buffered_ofCalls "$ A<int>>" []).2 .type _ hmoves (.refl _)
  exact ⟨by decide +kernel, by decide +kernel, by decide +kernel, by decide +kernel, hmoves,
    hbuffered.1⟩

end TokenStream

end TemplateIdl
