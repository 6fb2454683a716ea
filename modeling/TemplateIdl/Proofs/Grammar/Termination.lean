import Mathlib.Algebra.GroupWithZero.Nat
import TemplateIdl.Proofs.Grammar.Buffer

/-!
# Termination — every rule comes to an end

A rule that uses itself is unfolded as often as there is weight to read. That this is as often as
needed is seen from what stands behind the last unfolding: whatever it is, it is never used.

* `Token.load` and `TokenStream.CutFrom.weight_eq`, the weight of the tokens that are left;
* `Parse.unfoldFrom` and `Parse.Descending.agree_unfoldFrom`, unfolding a rule with anything behind
  the last unfolding;
* `Parse.Recursive` and `Parse.Rule`, the rules that use themselves and all rules;
* `TokenStream.Descends`, what rules do to the weight, and `TokenStream.descends_ofSource`, that
  they do so on all streams of a text, on which they come to an end.
-/

namespace TemplateIdl

open TokenStream

/-! ## The weight of what is left -/

/-- How much a token counts: a `>>` twice, and the end of the file not at all. -/
def Token.load (t : Token) : Nat :=
  match t.kind with
  | .greaterGreater => 2
  | .eof => 0
  | _ => 1

theorem Token.weight_eq_load {t : Token} (h : t.kind ≠ .eof) : t.weight = t.load := by
  unfold weight load
  split
  · next hk => rw [hk]
  · next hk =>
    split
    · next hshift => exact absurd hshift hk
    · next heof => exact absurd heof h
    · rfl

theorem Token.totalWeight_eq_sum {ts : List Token} (h : ∀ t ∈ ts, t.kind ≠ .eof) :
    totalWeight ts = (ts.map load).sum := by
  induction ts with
  | nil => rfl
  | cons t ts ih =>
    have ht : t.kind ≠ .eof := h t List.mem_cons_self
    have hts : ∀ u ∈ ts, u.kind ≠ .eof := fun u hu => h u (List.mem_cons_of_mem t hu)
    rw [totalWeight, weight_eq_load ht, ih hts, List.map_cons, List.sum_cons]

/-- The weight is that of the tokens from the position on. -/
theorem TokenStream.CutFrom.weight_eq {cs : List Char} {s : TokenStream} (h : CutFrom cs s) :
    s.weight = ((s.buffer.drop s.position).map Token.load).sum := by
  have hahead : ∀ t ∈ s.ahead, t.kind ≠ .eof := fun t ht =>
    h.kinds t (List.mem_append_right _ ht)
  have hstop : s.stop.load = 0 := by
    unfold Token.load
    rw [h.stop]
  rw [drop_position, List.map_append, List.sum_append, weight, Token.totalWeight_eq_sum hahead]
  simp [hstop]

namespace Parse

variable {α β ι : Type}

/-! ## Rules that use themselves -/

/-- A rule unfolded `n` times, behind which `bottom` is used. -/
def unfoldFrom (bottom : ι → Parse α) (rule : (ι → Parse α) → ι → Parse α) : Nat → ι → Parse α
  | 0, i => bottom i
  | n + 1, i => rule (unfoldFrom bottom rule n) i

/-- What stands behind the last unfolding is only seen by streams that are as heavy as there are
unfoldings. -/
theorem Descending.agree_unfoldFrom {rule : (ι → Parse α) → ι → Parse α} (h : Descending rule)
    (bottom : ι → Parse α) (n : Nat) (i : ι) : Agree n (fix rule i) (unfoldFrom bottom rule n i) := by
  induction n generalizing i with
  | zero => exact fun s _ hw => absurd hw (Nat.not_lt_zero _)
  | succ n ih =>
    intro s hs hw
    rw [h.step i hs]
    exact h.agree (fix rule) (unfoldFrom bottom rule n) (moving_fix h.moving) n ih i s hs hw

theorem Descending.agree_bind {rule : (ι → Parse α) → ι → Parse α} (h : Descending rule)
    (bottom : ι → Parse α) (n : Nat) (i : ι) (f : α → Parse β) :
    Agree n (fix rule i >>= f) (unfoldFrom bottom rule n i >>= f) := by
  have hmoving : Moving (fix rule i) := moving_fix h.moving i
  exact (h.agree_unfoldFrom bottom n i).bind fun a => .refl (f a)

/-- The rules that use themselves. Lists are read by a loop of their own for each kind of item. -/
inductive Recursive : {ι α : Type} → ((ι → Parse α) → ι → Parse α) → Prop
  | type : Recursive typeRule
  | declaration : Recursive declarationRule
  | enumerators : Recursive enumeratorRule
  | segments : Recursive (manyRule pathContinues (do discard advance; typeSegment))
  | members (h : ClassHead) : Recursive (manyRule (·.peek.kind != .rightBrace) (member h))
  | content (ns : List String) :
    Recursive (manyRule (·.peek.kind != .rightBrace) (Parse.declaration ns))
  | file : Recursive (manyRule (·.peek.kind != .eof) (Parse.declaration []))
  | templateArgs : Recursive (commaRule (typeIn true))
  | templateParams : Recursive (commaRule templateParam)
  | choices : Recursive (commaRule typeUse)
  | arguments : Recursive (commaRule argument)

theorem Recursive.descending {rule : (ι → Parse α) → ι → Parse α} (h : Recursive rule) :
    Descending rule := by
  cases h with
  | type => exact descending_typeRule
  | declaration => exact descending_declarationRule
  | enumerators => exact descending_enumeratorRule
  | segments => exact descending_manyRule _
  | members h => exact descending_manyRule _
  | content ns => exact descending_manyRule _
  | file => exact descending_manyRule _
  | templateArgs => exact descending_commaRule
  | templateParams => exact descending_commaRule
  | choices => exact descending_commaRule
  | arguments => exact descending_commaRule

/-! ## All rules -/

/-- The rules of the grammar. Those for types, enumerators and declarations are among the ones that
use themselves. -/
inductive Rule : {α : Type} → Parse α → Prop
  | recursive {ι α : Type} {rule : (ι → Parse α) → ι → Parse α} (h : Recursive rule) (i : ι) :
    Rule (fix rule i)
  | peek : Rule peek
  | check (k : Kind) : Rule (check k)
  | checkSecond (k : Kind) : Rule (checkSecond k)
  | advance : Rule advance
  | eat (k : Kind) : Rule (eat k)
  | expect (k : Kind) : Rule (expect k)
  | expectIdentifier : Rule expectIdentifier
  | expectEof : Rule expectEof
  | spanFrom (start : Span) : Rule (spanFrom start)
  | typeSegment : Rule typeSegment
  | path : Rule path
  | basicTypename : Rule basicTypename
  | atTemplateClose : Rule atTemplateClose
  | templateClose : Rule templateClose
  | templateArgs : Rule (templateArgs (typeIn true))
  | typename (inArgs : Bool) : Rule (typenameWith (typeIn true) inArgs)
  | indirection : Rule indirection
  | returnType : Rule returnType
  | choices : Rule choices
  | templateParam : Rule templateParam
  | templateHeader : Rule templateHeader
  | defaultValue : Rule defaultValue
  | optionalDefault : Rule optionalDefault
  | argument : Rule argument
  | arguments : Rule arguments
  | skipEnumeratorValue : Rule skipEnumeratorValue
  | enumeration (ns : List String) : Rule (enumeration ns)
  | operatorSymbol : Rule operatorSymbol
  | methodRest (h : ClassHead) (template : Option Template) (start : Span) (result : ReturnType)
    (name : String) : Rule (methodRest h template start result name)
  | staticRest (h : ClassHead) (template : Option Template) (start : Span) :
    Rule (staticRest h template start)
  | ctorRest (h : ClassHead) (template : Option Template) (start : Span) (t : Token) :
    Rule (ctorRest h template start t)
  | templatableMember (h : ClassHead) (template : Option Template) (start : Span) :
    Rule (templatableMember h template start)
  | typedMember (h : ClassHead) (start : Span) : Rule (typedMember h start)
  | member (h : ClassHead) : Rule (member h)
  | classBody (h : ClassHead) (start : Span) : Rule (classBody h start)
  | optionalParent : Rule optionalParent
  | classOrForward (ns : List String) (template : Option Template) (start : Span) :
    Rule (classOrForward ns template start)
  | inclusion : Rule inclusion
  | typedef (ns : List String) : Rule (typedef ns)
  | functionOrVariable (ns : List String) (template : Option Template) (start : Span) :
    Rule (functionOrVariable ns template start)
  | space (ns : List String) : Rule (space Parse.declaration ns)
  | interface : Rule interface

theorem Rule.moving {x : Parse α} (h : Rule x) : Moving x := by
  cases h with
  | recursive h i => exact moving_fix h.descending.moving i
  | _ => infer_instance

end Parse

open Parse

/-! ## What rules do to the weight -/

/-- On the stream the weight is that of the tokens left. Rules that use themselves come to an end
before the last of as many unfoldings; no rule adds to the weight, also if it fails; and types,
declarations, members and closing brackets take something off when they are read. -/
structure TokenStream.Descends (s : TokenStream) : Prop where
  weight : s.weight = ((s.buffer.drop s.position).map Token.load).sum
  ends {ι α : Type} {rule : (ι → Parse α) → ι → Parse α} (h : Recursive rule)
    (bottom : ι → Parse α) (n : Nat) (i : ι) (hn : s.weight < n) :
    unfoldFrom bottom rule n i s = fix rule i s
  weight_le {α : Type} {x : Parse α} (h : Rule x) : (leaves x s).weight ≤ s.weight
  type (inArgs : Bool) (a : TypeExpr) (t : TokenStream) (h : typeIn inArgs s = .ok a t) :
    t.weight < s.weight
  returnType (a : ReturnType) (t : TokenStream) (h : Parse.returnType s = .ok a t) :
    t.weight < s.weight
  declaration (ns : List String) (d : Declaration) (t : TokenStream)
    (h : Parse.declaration ns s = .ok d t) : t.weight < s.weight
  member (c : ClassHead) (m : Member) (t : TokenStream) (h : Parse.member c s = .ok m t) :
    t.weight < s.weight
  templateClose (t : TokenStream) (h : Parse.templateClose s = .ok () t) : t.weight < s.weight

namespace TokenStream

theorem CutFrom.descends {cs : List Char} {s : TokenStream} (h : CutFrom cs s) : Descends s where
  weight := h.weight_eq
  ends hrule bottom n i hn := (hrule.descending.agree_unfoldFrom bottom n i s h.stop hn).symm
  weight_le hrule := (hrule.moving.moves s).weight_le
  type inArgs _ _ hrun := (strict_typeIn inArgs).weight_lt h.stop hrun
  returnType _ _ hrun := strict_returnType.weight_lt h.stop hrun
  declaration ns _ _ hrun := (strict_declaration ns).weight_lt h.stop hrun
  member c _ _ hrun := (strict_member c).weight_lt h.stop hrun
  templateClose _ hrun := strict_templateClose.weight_lt h.stop hrun

/-- A text is read the same by rules that do the same to its stream. -/
theorem parseWith_congr {α : Type} {x y : Parse α} {source : String}
    (h : x (ofLexed (Lexed.ofSource source)) = y (ofLexed (Lexed.ofSource source))) :
    parseWith x source = parseWith y source := by
  unfold parseWith EStateM.run
  dsimp only
  rw [h]

/-- The weight of a text. -/
def sourceWeight (source : String) : Nat := (ofLexed (Lexed.ofSource source)).weight

/-- **Rules come to an end on every text.** A file and a type are read the same whatever stands
behind more unfoldings than the text is heavy, also if the text is not valid, and on every stream of
the text rules do to the weight what `Descends` says. -/
theorem descends_ofSource (source : String) :
    (∀ (bottom : Unit → Parse (List Declaration)) (n : Nat), sourceWeight source < n →
      parseWith (do
        let content ← unfoldFrom bottom
          (manyRule (·.peek.kind != .eof) (Parse.declaration [])) n ()
        pure (Interface.mk content)) source = Interface.parse source) ∧
    (∀ (bottom : Bool → Parse TypeExpr) (n : Nat), sourceWeight source < n →
      parseWith (do
        let t ← unfoldFrom bottom typeRule n false
        expectEof
        pure t) source = TypeExpr.parse source) ∧
    ∀ s, Moves (ofLexed (Lexed.ofSource source)) s → Descends s := by
  have hcut := cutFrom_ofSource source
  refine ⟨?_, ?_, fun s hs => (hcut.moves hs).descends⟩
  · intro bottom n hn
    have hloop := Recursive.file.descending.agree_bind bottom n () fun content =>
      pure (Interface.mk content)
    exact (parseWith_congr (hloop _ hcut.stop hn)).symm
  · intro bottom n hn
    have htype := Recursive.type.descending.agree_bind bottom n false fun t => do
      expectEof
      pure t
    exact (parseWith_congr (htype _ hcut.stop hn)).symm

/-- A shift weighs two, of which the type that it closes takes one. -/
theorem shift_descends :
    sourceWeight "A<int>>" = 5 ∧
    parseWith (do
      let content ← unfoldFrom (fun _ => pure [])
        (manyRule (·.peek.kind != .eof) (Parse.declaration [])) 6 ()
      pure (Interface.mk content)) "A<int>>" = Interface.parse "A<int>>" ∧
    parseWith (do
      let t ← unfoldFrom (fun _ => pure (TypeExpr.named "int")) typeRule 6 false
      expectEof
      pure t) "A<int>>" = TypeExpr.parse "A<int>>" ∧
    (leaves typeUse (ofLexed (Lexed.ofSource "A<int>>"))).weight = 1 ∧
    Descends (leaves typeUse (ofLexed (Lexed.ofSource "A<int>>"))) := by
  have hweight : sourceWeight "A<int>>" = 5 := by decide +kernel
  have hlt : sourceWeight "A<int>>" < 6 := by omega
  obtain ⟨hfile, htype, hstreams⟩ := descends_ofSource "A<int>>"
  refine ⟨hweight, hfile _ 6 hlt, htype _ 6 hlt, by decide +kernel, ?_⟩
  exact hstreams _ (moving_typeUse.moves _)

end TokenStream

end TemplateIdl
