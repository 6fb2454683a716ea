import Mathlib.Data.List.DropRight
import TemplateIdl.Span

/-!
# Place — stretches that lie in a text

* `Position.start_after`, line and column of a place in terms of the text before it;
* `Span.Covers` and `Span.LiesIn`, a stretch that lies in a text on character boundaries and has
  the line and column of its offset;
* `Span.LiesIn.merge`, the stretch from one place to another one is a place again;
* `Span.Covers.head` and `Span.Covers.tail`, the two parts of a stretch;
* `Span.Covers.merge`, what a stretch covers that is merged from two;
* `Span.Inside` and `Span.Ascending`, how stretches lie to each other.
-/

namespace TemplateIdl

/-- The characters of a text behind its last line feed. -/
def lastLine (cs : List Char) : List Char := cs.rtakeWhile (· ≠ '\n')

@[simp] theorem lastLine_append_singleton (cs : List Char) (c : Char) :
    lastLine (cs ++ [c]) = if c = '\n' then [] else lastLine cs ++ [c] := by
  by_cases hc : c = '\n' <;> simp [lastLine, hc]

/-- Lines are told by the line feeds before a place, columns by the bytes behind the last one. -/
theorem Position.start_after (cs : List Char) :
    Position.start.after cs =
      ⟨byteLength cs, cs.count '\n' + 1, byteLength (lastLine cs) + 1⟩ := by
  induction cs using List.reverseRecOn with
  | nil => rfl
  | append_singleton cs c ih =>
    rw [after_append, ih, after_cons, after_nil, next, lastLine_append_singleton]
    split
    · next hc =>
      subst hc
      simp [show Char.utf8Size '\n' = 1 from rfl]
    · next hc => simp [List.count_append, hc, Nat.add_right_comm]

theorem byteLength_eq_zero {cs : List Char} (h : byteLength cs = 0) : cs = [] := by
  cases cs with
  | nil => rfl
  | cons c cs =>
    have := c.utf8Size_pos
    simp only [byteLength_cons] at h
    omega

/-- Of two front parts of a text the one with fewer bytes is a front part of the other. -/
theorem isPrefix_of_byteLength_le {as bs cs : List Char} (ha : as <+: cs) (hb : bs <+: cs)
    (h : byteLength as ≤ byteLength bs) : as <+: bs := by
  rcases List.prefix_or_prefix_of_prefix ha hb with hp | ⟨ds, rfl⟩
  · exact hp
  · rw [byteLength_append] at h
    have hds : ds = [] := byteLength_eq_zero (by omega)
    simp [hds]

namespace Span

/-- The stretch covers the text `body`, behind the text `front`. -/
structure Covers (s : Span) (front body : List Char) : Prop where
  offset : s.offset = byteLength front
  line : s.line = front.count '\n' + 1
  col : s.col = byteLength (lastLine front) + 1
  len : s.len = byteLength body

/-- The stretch lies in the text on character boundaries, and its line and column are those of
its offset. -/
def LiesIn (cs : List Char) (s : Span) : Prop :=
  ∃ front body back, cs = front ++ (body ++ back) ∧ s.Covers front body

theorem covers_iff {s : Span} {front body : List Char} :
    s.Covers front body ↔ s = covering (Position.start.after front) body := by
  obtain ⟨⟨offset, line, col⟩, len⟩ := s
  rw [Position.start_after, covering, Span.mk.injEq, Position.mk.injEq]
  exact ⟨fun h => ⟨⟨h.offset, h.line, h.col⟩, h.len⟩, fun h => ⟨h.1.1, h.1.2.1, h.1.2.2, h.2⟩⟩

theorem covers_covering (front body : List Char) :
    (covering (Position.start.after front) body).Covers front body :=
  covers_iff.2 rfl

theorem covers_point (front : List Char) : (point (Position.start.after front)).Covers front [] :=
  covers_iff.2 rfl

namespace Covers

variable {s t : Span} {front body as bs : List Char}

theorem stop (h : s.Covers front body) : s.stop = byteLength (front ++ body) := by
  rw [Span.stop, h.offset, h.len, byteLength_append]

theorem slice? (h : s.Covers front body) (back : List Char) :
    s.slice? (front ++ (body ++ back)) = some body := by
  rw [covers_iff.1 h]
  exact slice?_covering front body back

theorem liesIn (h : s.Covers front body) (back : List Char) :
    LiesIn (front ++ (body ++ back)) s :=
  ⟨front, body, back, rfl, h⟩

/-- The first part of a stretch. -/
theorem head (h : s.Covers front (as ++ bs)) : { s with len := byteLength as }.Covers front as :=
  ⟨h.offset, h.line, h.col, rfl⟩

/-- The last part of a stretch, if no line ends before it. -/
theorem tail (h : s.Covers front (as ++ bs)) (ha : '\n' ∉ as) :
    Covers ⟨⟨s.offset + byteLength as, s.line, s.col + byteLength as⟩, byteLength bs⟩
      (front ++ as) bs := by
  have hlast : lastLine (front ++ as) = lastLine front ++ as := by
    induction as using List.reverseRecOn generalizing bs with
    | nil => simp
    | append_singleton as c ih =>
      simp only [List.mem_append, List.mem_singleton, not_or] at ha
      have hc : c ≠ '\n' := fun he => ha.2 he.symm
      rw [List.append_assoc] at h
      rw [← List.append_assoc, lastLine_append_singleton, if_neg hc, ih h ha.1, List.append_assoc]
  refine ⟨?_, ?_, ?_, rfl⟩
  · simp [h.offset]
  · simp [h.line, List.count_append, List.count_eq_zero_of_not_mem ha]
  · simp [h.col, hlast, Nat.add_right_comm]

/-- From the beginning of one stretch to the end of another one behind it. -/
theorem merge {front' : List Char} (hs : s.Covers front as) (ht : t.Covers front' bs)
    (h : front' ++ bs = front ++ body) (hle : byteLength as ≤ byteLength body)
    (hfront : byteLength front ≤ byteLength front') : (s.merge t).Covers front body := by
  have hend : max s.stop t.stop = byteLength front + byteLength body := by
    rw [hs.stop, ht.stop, h, byteLength_append, byteLength_append]
    omega
  have hfirst : s.offset ≤ t.offset := by rw [hs.offset, ht.offset]; exact hfront
  unfold Span.merge
  rw [if_pos hfirst, hend]
  refine ⟨hs.offset, hs.line, hs.col, ?_⟩
  dsimp only
  rw [hs.offset, Nat.add_sub_cancel_left]

end Covers

@[simp] theorem merge_self (s : Span) : s.merge s = s := by
  simp [merge, stop]

namespace LiesIn

variable {cs : List Char} {s t : Span}

/-- What lies in a text can be cut out of it. -/
theorem slice?_isSome (h : LiesIn cs s) : (s.slice? cs).isSome = true := by
  obtain ⟨front, body, back, rfl, hc⟩ := h
  simp [hc.slice?]

/-- From a place to a later end. -/
theorem extend {front rest pre post : List Char} {p : Position} (hcs : cs = front ++ rest)
    (hp : p = Position.start.after front) (hpost : cs = pre ++ post)
    (hle : p.offset ≤ byteLength pre) : LiesIn cs ⟨p, byteLength pre - p.offset⟩ := by
  have hoff : p.offset = byteLength front := by simp [hp, Position.start_after]
  obtain ⟨body, rfl⟩ := isPrefix_of_byteLength_le ⟨rest, hcs.symm⟩ ⟨post, hpost.symm⟩
    (hoff ▸ hle)
  refine ⟨front, body, post, by simp [hpost], covers_iff.2 ?_⟩
  rw [covering, ← hp, Span.mk.injEq]
  refine ⟨rfl, ?_⟩
  rw [byteLength_append, hoff]
  omega

theorem merge (hs : LiesIn cs s) (ht : LiesIn cs t) : LiesIn cs (s.merge t) := by
  obtain ⟨fs, bs, rs, hcs, hcov⟩ := hs
  obtain ⟨ft, bt, rt, hct, hcot⟩ := ht
  have hs1 := congrArg Span.toPosition (covers_iff.1 hcov)
  have ht1 := congrArg Span.toPosition (covers_iff.1 hcot)
  -- the end is that of one of the two
  obtain ⟨pre, post, hpre, hend⟩ : ∃ pre post, cs = pre ++ post ∧
      max s.stop t.stop = byteLength pre := by
    rcases Nat.le_total s.stop t.stop with hle | hle
    · exact ⟨ft ++ bt, rt, by simp [hct], by rw [Nat.max_eq_right hle, hcot.stop]⟩
    · exact ⟨fs ++ bs, rs, by simp [hcs], by rw [Nat.max_eq_left hle, hcov.stop]⟩
  have hs2 : s.offset ≤ s.stop := Nat.le_add_right _ _
  have ht2 : t.offset ≤ t.stop := Nat.le_add_right _ _
  unfold Span.merge
  dsimp only
  rw [hend]
  split
  · exact extend hcs hs1 hpre (by omega)
  · exact extend hct ht1 hpre (by omega)

end LiesIn

/-- The stretch can be cut out of the text, and its line and column are those of its offset. -/
def IsReal (source : String) (s : Span) : Prop :=
  (s.slice source).isSome = true ∧ LiesIn source.toList s

theorem LiesIn.isReal {source : String} {s : Span} (h : LiesIn source.toList s) :
    IsReal source s := by
  refine ⟨?_, h⟩
  rw [slice, Option.isSome_map]
  exact h.slice?_isSome

/-- The first stretch lies inside the second one. -/
def Inside (s t : Span) : Prop := t.offset ≤ s.offset ∧ s.stop ≤ t.stop

/-- Stretches that stand one behind the other. -/
def Ascending (spans : List Span) : Prop := spans.Pairwise fun s t => s.stop ≤ t.offset

end Span

end TemplateIdl
