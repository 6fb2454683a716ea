import TemplateIdl.Grammar.Declaration
import TemplateIdl.Proofs.Decl.Image

/-!
# Moves — how rules move a stream

* `TokenStream.Moves`, a stream reached from another one by reading tokens and splitting shifts,
  with `TokenStream.Moves.keeps`, what both keep is kept;
* `Parse.Moving`, a rule that only moves the stream, also when it fails, as all rules do;
* `Parse.Strict`, a rule that reads something whenever it gives a value.
-/

namespace TemplateIdl

namespace TokenStream

/-- From the first stream the second one is reached by reading tokens and splitting shifts. -/
inductive Moves : TokenStream → TokenStream → Prop
  | refl (s : TokenStream) : Moves s s
  | advance {s s' : TokenStream} (h : Moves s.advance s') : Moves s s'
  | split {s s' : TokenStream} (h : Moves s.splitShift s') : Moves s s'

/-- A token that is not the end of the file can be read. -/
theorem ahead_ne_nil {s : TokenStream} (h : s.peek.kind ≠ s.stop.kind) : s.ahead ≠ [] := by
  intro hnil
  obtain ⟨past, ahead, stop⟩ := s
  cases hnil
  exact h rfl

/-- Reading a token that is not the end of the file takes its weight off. -/
theorem weight_advance_lt_of_kind {s : TokenStream} (hs : s.stop.kind = .eof)
    (h : s.peek.kind ≠ .eof) : s.advance.weight < s.weight :=
  weight_advance_lt (ahead_ne_nil (hs ▸ h))

namespace Moves

variable {s t u : TokenStream}

theorem trans (h : Moves s t) (h' : Moves t u) : Moves s u := by
  induction h with
  | refl => exact h'
  | advance _ ih => exact .advance (ih h')
  | split _ ih => exact .split (ih h')

/-- What reading a token and splitting a shift keep, every move keeps. -/
theorem keeps {I : TokenStream → Prop} (hadvance : ∀ s, I s → I s.advance)
    (hsplit : ∀ s, I s → I s.splitShift) (h : Moves s t) (hs : I s) : I t := by
  induction h with
  | refl => exact hs
  | advance _ ih => exact ih (hadvance _ hs)
  | split _ ih => exact ih (hsplit _ hs)

theorem weight_le (h : Moves s t) : t.weight ≤ s.weight := by
  refine h.keeps (I := fun u => u.weight ≤ s.weight) ?_ ?_ (Nat.le_refl _)
  · intro u hu
    by_cases hne : u.ahead = []
    · obtain ⟨past, ahead, stop⟩ := u
      cases hne
      exact hu
    · exact Nat.le_trans (Nat.le_of_lt (weight_advance_lt hne)) hu
  · intro u hu
    rwa [weight_splitShift]

theorem stop_eq (h : Moves s t) : t.stop = s.stop := by
  refine h.keeps (I := fun u => u.stop = s.stop) ?_ ?_ rfl
  · rintro ⟨past, ahead, stop⟩ hu
    cases ahead <;> exact hu
  · rintro ⟨past, ahead, stop⟩ hu
    unfold splitShift
    cases ahead with
    | nil => exact hu
    | cons t ts =>
      dsimp only
      split <;> exact hu

theorem skip (s : TokenStream) (n : Nat) : Moves s (s.skip n) := by
  obtain ⟨past, ahead, stop⟩ := s
  induction n generalizing past ahead with
  | zero => exact .refl _
  | succ n ih =>
    cases ahead with
    | nil => exact .refl _
    | cons t ts =>
      have := ih (t :: past) ts
      refine .advance ?_
      simpa [TokenStream.skip] using this

end Moves

end TokenStream

open TokenStream

namespace Parse

variable {α β : Type} {x y : Parse α} {f : α → Parse β} {s : TokenStream} {k : Kind}

/-! ## Rules that only move the stream -/

/-- The stream that a rule leaves behind, also when it fails. -/
def leaves (x : Parse α) (s : TokenStream) : TokenStream :=
  match x s with
  | .ok _ s' => s'
  | .error _ s' => s'

/-- The rule only reads tokens and splits shifts. -/
class Moving (x : Parse α) : Prop where
  moves (s : TokenStream) : Moves s (leaves x s)

theorem Moving.ok (h : Moving x) {a : α} {s' : TokenStream} (hx : x s = .ok a s') :
    Moves s s' := by
  have := h.moves s
  rwa [leaves, hx] at this

theorem Moving.error (h : Moving x) {e : ParseError} {s' : TokenStream} (hx : x s = .error e s') :
    Moves s s' := by
  have := h.moves s
  rwa [leaves, hx] at this

/-- A rule that stays or reads one token. -/
theorem Moving.of_step (h : ∀ s, leaves x s = s ∨ leaves x s = s.advance) : Moving x where
  moves s := by
    rcases h s with hs | hs
    · rw [hs]
      exact .refl s
    · rw [hs]
      exact .advance (.refl _)

section Instances

-- the search follows a whole rule, which may have many steps
set_option synthInstance.maxSize 1000

instance Moving.bind [hx : Moving x] [hf : ∀ a, Moving (f a)] : Moving (x >>= f) where
  moves s := by
    show Moves s (match EStateM.bind x f s with | .ok _ s' => s' | .error _ s' => s')
    rw [EStateM.bind]
    rcases hr : x s with ⟨a, s1⟩ | ⟨e, s1⟩
    · exact (hx.ok hr).trans ((hf a).moves s1)
    · exact hx.error hr

theorem Moving.of_bind [Moving x] (hf : ∀ a, Moving (f a)) : Moving (x >>= f) := inferInstance

instance Moving.discard [hx : Moving x] : Moving (Functor.discard x) where
  moves s := by
    have hmap : (Functor.discard x) s = EStateM.map (Function.const α ()) x s := rfl
    unfold leaves
    rw [hmap, EStateM.map]
    rcases hr : x s with ⟨a, s1⟩ | ⟨e, s1⟩
    · exact hx.ok hr
    · exact hx.error hr

instance Moving.ite {c : Prop} [Decidable c] [hx : Moving x] [hy : Moving y] :
    Moving (if c then x else y) := by
  split
  · exact hx
  · exact hy

instance moving_pure (a : α) : Moving (pure a) := ⟨fun _ => .refl _⟩

instance moving_fail (kind : ParseErrorKind) (span : Span) (message : String) :
    Moving (fail kind span message : Parse α) := ⟨fun _ => .refl _⟩

instance moving_throw (e : ParseError) : Moving (throw e : Parse α) := ⟨fun _ => .refl _⟩

instance moving_get : Moving (get : Parse TokenStream) := ⟨fun _ => .refl _⟩

instance moving_splitShift : Moving (modify splitShift : Parse PUnit) := ⟨fun _ => .split (.refl _)⟩

instance moving_peek : Moving peek := ⟨fun _ => .refl _⟩

instance moving_check (k : Kind) : Moving (check k) := ⟨fun _ => .refl _⟩

instance moving_checkSecond (k : Kind) : Moving (checkSecond k) := ⟨fun _ => .refl _⟩

instance moving_spanFrom (start : Span) : Moving (spanFrom start) := ⟨fun _ => .refl _⟩

instance moving_atTemplateClose : Moving atTemplateClose := ⟨fun _ => .refl _⟩

instance moving_exhausted : Moving (exhausted : Parse α) := ⟨fun _ => .refl _⟩

instance moving_advance : Moving advance := ⟨fun _ => .advance (.refl _)⟩

instance moving_eat (k : Kind) : Moving (eat k) := .of_step fun s => by
  unfold leaves eat
  by_cases h : s.peek.kind = k <;> simp [h]

instance moving_expect (k : Kind) : Moving (expect k) := .of_step fun s => by
  unfold leaves expect
  by_cases h : s.peek.kind = k
  · simp [h]
  · dsimp only
    rw [if_neg h]
    by_cases h' : s.peek.kind = .eof
    · simp [if_pos h']
    · simp [if_neg h']

instance moving_expectEof : Moving expectEof := .of_step fun s => by
  unfold leaves expectEof
  by_cases h : s.peek.kind = .eof <;> simp [h]

instance moving_expectIdentifier : Moving expectIdentifier := .of_step fun s => by
  unfold leaves expectIdentifier
  by_cases h : s.peek.kind = .identifier
  · simp [h]
  · by_cases h' : s.peek.kind = .eof <;> simp [h, h']

instance moving_typeSegment : Moving typeSegment := .of_step fun s => by
  unfold leaves typeSegment
  by_cases h : s.peek.kind = .identifier
  · simp [h]
  · by_cases h' : s.peek.kind = .eof <;> simp [h, h']

/-! ### Repetition -/

section Fix

variable {ι : Type} {rule : (ι → Parse α) → ι → Parse α}

theorem moving_unfold (h : ∀ self, (∀ i, Moving (self i)) → ∀ i, Moving (rule self i)) (n : Nat)
    (i : ι) : Moving (unfold rule n i) :=
  unfold_property moving_exhausted h n i

theorem moving_fix (h : ∀ self, (∀ i, Moving (self i)) → ∀ i, Moving (rule self i)) (i : ι) :
    Moving (fix rule i) :=
  ⟨fun s => (moving_unfold h (s.weight + 1) i).moves s⟩

end Fix

instance moving_manyRule (more : TokenStream → Bool) [Moving x] (again : Unit → Parse (List α))
    [∀ i, Moving (again i)] (i : Unit) : Moving (manyRule more x again i) := by
  unfold manyRule
  infer_instance

instance moving_manyWhile (more : TokenStream → Bool) [Moving x] : Moving (manyWhile more x) := by
  rw [manyWhile_eq]
  exact moving_fix (fun again _ i => moving_manyRule more again i) ()

instance moving_commaRule [Moving x] (again : Unit → Parse (List α)) [∀ i, Moving (again i)]
    (i : Unit) : Moving (commaRule x again i) := by
  unfold commaRule
  infer_instance

instance moving_commaSeparated [Moving x] : Moving (commaSeparated x) := by
  rw [commaSeparated_eq]
  exact moving_fix (fun again _ i => moving_commaRule again i) ()

/-! ### Types -/

instance moving_path : Moving path := by
  unfold path
  infer_instance

instance moving_basicTypename : Moving basicTypename := by
  unfold basicTypename
  infer_instance

instance moving_templateClose : Moving templateClose := by
  unfold templateClose
  infer_instance

instance moving_bracketed (whenEmpty : String) [Moving x] : Moving (bracketed whenEmpty x) := by
  unfold bracketed
  infer_instance

instance moving_templateArgs (arg : Parse TypeExpr) [Moving arg] : Moving (templateArgs arg) :=
  moving_bracketed _

instance moving_typenameWith (arg : Parse TypeExpr) [Moving arg] (inArgs : Bool) :
    Moving (typenameWith arg inArgs) := by
  unfold typenameWith
  infer_instance

instance moving_indirection : Moving indirection := by
  unfold indirection
  infer_instance

instance moving_typeRule (self : Bool → Parse TypeExpr) [∀ i, Moving (self i)] (inArgs : Bool) :
    Moving (typeRule self inArgs) := by
  unfold typeRule
  infer_instance

instance moving_typeIn (inArgs : Bool) : Moving (typeIn inArgs) :=
  moving_fix (fun self _ i => moving_typeRule self i) inArgs

instance moving_typeUse : Moving typeUse := moving_typeIn false

instance moving_typename : Moving typename := moving_typenameWith (typeIn true) false

instance moving_returnType : Moving returnType := by
  unfold returnType
  infer_instance

instance moving_choices : Moving choices := by
  unfold choices
  dsimp only
  infer_instance

instance moving_templateParam : Moving templateParam := by
  unfold templateParam
  infer_instance

instance moving_templateHeader : Moving templateHeader := by
  unfold templateHeader
  infer_instance

/-! ### Arguments -/

instance moving_defaultValue : Moving defaultValue where
  moves s := by
    unfold leaves defaultValue
    split
    · next h =>
      split at h
      · cases h
      · cases h
        exact .skip s _
      · cases h
      · cases h
    · next h =>
      split at h
      · cases h
        exact .refl s
      · cases h
      · cases h
        exact .refl s
      · cases h
        exact .refl s

instance moving_optionalDefault : Moving optionalDefault := by
  unfold optionalDefault
  infer_instance

instance moving_argument : Moving argument := by
  unfold argument
  infer_instance

instance moving_arguments : Moving arguments := by
  unfold arguments
  infer_instance

/-! ### Declarations -/

instance moving_skipEnumeratorValue : Moving skipEnumeratorValue where
  moves s := by
    unfold leaves skipEnumeratorValue
    dsimp only
    split
    · next h =>
      split at h
      · cases h
      · cases h
        exact .skip s _
    · next h =>
      split at h
      · cases h
        exact .refl s
      · cases h

instance moving_enumeratorRule (again : Unit → Parse (List String)) [∀ i, Moving (again i)]
    (i : Unit) : Moving (enumeratorRule again i) := by
  unfold enumeratorRule
  dsimp only
  infer_instance

instance moving_enumerators : Moving enumerators := by
  rw [enumerators_eq]
  exact moving_fix (fun again _ i => moving_enumeratorRule again i) ()

instance moving_enumeration (ns : List String) : Moving (enumeration ns) := by
  unfold enumeration
  dsimp only
  infer_instance

instance moving_operatorSymbol : Moving operatorSymbol := by
  unfold operatorSymbol
  refine Moving.of_bind fun t => ?_
  split <;> infer_instance

section Members

variable (h : ClassHead) (template : Option Template) (start : Span)

instance moving_methodRest (result : ReturnType) (name : String) :
    Moving (methodRest h template start result name) := by
  unfold methodRest
  infer_instance

instance moving_staticRest : Moving (staticRest h template start) := by
  unfold staticRest
  infer_instance

instance moving_ctorRest (t : Token) : Moving (ctorRest h template start t) := by
  unfold ctorRest
  split <;> infer_instance

instance moving_templatableMember : Moving (templatableMember h template start) := by
  unfold templatableMember
  infer_instance

instance moving_typedMember : Moving (typedMember h start) := by
  unfold typedMember
  infer_instance

instance moving_member : Moving (member h) := by
  unfold member
  refine Moving.of_bind fun t => ?_
  split <;> infer_instance

instance moving_classBody : Moving (classBody h start) := by
  unfold classBody
  infer_instance

end Members

instance moving_optionalParent : Moving optionalParent := by
  unfold optionalParent
  infer_instance

instance moving_classOrForward (ns : List String) (template : Option Template) (start : Span) :
    Moving (classOrForward ns template start) := by
  unfold classOrForward
  infer_instance

instance moving_inclusion : Moving inclusion := by
  unfold inclusion
  refine Moving.of_bind fun t => ?_
  split <;> infer_instance

instance moving_typedef (ns : List String) : Moving (typedef ns) := by
  unfold typedef
  infer_instance

instance moving_functionOrVariable (ns : List String) (template : Option Template)
    (start : Span) : Moving (functionOrVariable ns template start) := by
  unfold functionOrVariable
  infer_instance

instance moving_space (self : List String → Parse Declaration) [∀ ns, Moving (self ns)]
    (ns : List String) : Moving (space self ns) := by
  unfold space
  infer_instance

instance moving_declarationRule (self : List String → Parse Declaration)
    [∀ ns, Moving (self ns)] (ns : List String) : Moving (declarationRule self ns) := by
  unfold declarationRule
  refine Moving.of_bind fun t => ?_
  split <;> infer_instance

instance moving_declaration (ns : List String) : Moving (declaration ns) :=
  moving_fix (fun self _ ns => moving_declarationRule self ns) ns

instance moving_interface : Moving interface := by
  unfold interface
  infer_instance

/-! ## Rules that read something -/

/-- On the stream of a file the rule reads something whenever it gives a value. -/
class Strict (x : Parse α) : Prop where
  weight_lt {s s' : TokenStream} {a : α} (hs : s.stop.kind = .eof) (h : x s = .ok a s') :
    s'.weight < s.weight

/-- A rule that reads a token which is not the end of the file. -/
theorem Strict.of_step
    (h : ∀ s a s', x s = .ok a s' → s.peek.kind ≠ .eof ∧ s' = s.advance) : Strict x where
  weight_lt := by
    intro s s' a hs hx
    obtain ⟨hk, rfl⟩ := h s a s' hx
    exact weight_advance_lt_of_kind hs hk

instance (priority := low) Strict.bind_left [hx : Strict x] [hf : ∀ a, Moving (f a)] :
    Strict (x >>= f) where
  weight_lt := by
    intro s s' b hs h
    obtain ⟨a, s1, ha, hb⟩ := bind_eq_ok.1 h
    exact Nat.lt_of_le_of_lt ((hf a).ok hb).weight_le (hx.weight_lt hs ha)

instance Strict.bind_right [hx : Moving x] [hf : ∀ a, Strict (f a)] : Strict (x >>= f) where
  weight_lt := by
    intro s s' b hs h
    obtain ⟨a, s1, ha, hb⟩ := bind_eq_ok.1 h
    have hmoves := hx.ok ha
    exact Nat.lt_of_lt_of_le ((hf a).weight_lt (hmoves.stop_eq ▸ hs) hb) hmoves.weight_le

theorem Strict.of_bind [Moving x] (hf : ∀ a, Strict (f a)) : Strict (x >>= f) := inferInstance

instance Strict.discard [hx : Strict x] : Strict (Functor.discard x) where
  weight_lt := by
    intro s s' a hs h
    have hy : Yields x s fun _ s' => s'.weight < s.weight := fun b s1 hb => hx.weight_lt hs hb
    obtain ⟨-, hw⟩ := hy.discard a s' h
    exact hw

instance Strict.ite {c : Prop} [Decidable c] [hx : Strict x] [hy : Strict y] :
    Strict (if c then x else y) := by
  split
  · exact hx
  · exact hy

instance strict_fail (kind : ParseErrorKind) (span : Span) (message : String) :
    Strict (fail kind span message : Parse α) := ⟨fun _ h => by cases h⟩

instance strict_throw (e : ParseError) : Strict (throw e : Parse α) := ⟨fun _ h => by cases h⟩

theorem strict_expect (hk : k ≠ .eof) : Strict (expect k) := .of_step fun s t s' h => by
  obtain ⟨rfl, he, rfl⟩ := yields_expect k t s' h
  exact ⟨he ▸ hk, rfl⟩

instance strict_expect_less : Strict (expect .less) := strict_expect (by decide)

instance strict_expect_semicolon : Strict (expect .semicolon) := strict_expect (by decide)

instance strict_expect_rightBrace : Strict (expect .rightBrace) := strict_expect (by decide)

instance strict_expect_include : Strict (expect .includeDirective) := strict_expect (by decide)

instance strict_expectIdentifier : Strict expectIdentifier := .of_step fun s n s' h => by
  obtain ⟨he, -, rfl⟩ := yields_expectIdentifier n s' h
  exact ⟨by rw [he]; decide, rfl⟩

instance strict_typeSegment : Strict typeSegment := .of_step fun s n s' h => by
  unfold typeSegment at h
  dsimp only at h
  split at h
  · next he =>
    cases h
    exact ⟨by rw [he]; decide, rfl⟩
  · split at h <;> cases h

/-- A semicolon is read, or the rule reads something without it. -/
instance strict_eat_semicolon [hx : Moving x] [hy : Strict y] :
    Strict (eat .semicolon >>= fun b => if b = true then x else y) where
  weight_lt := by
    intro s s' a hs h
    obtain ⟨b, s1, hb, ha⟩ := bind_eq_ok.1 h
    have heat := yields_eat .semicolon b s1 hb
    cases b with
    | true =>
      obtain ⟨hk, rfl⟩ := heat
      have hlt := weight_advance_lt_of_kind hs (by rw [hk]; decide)
      exact Nat.lt_of_le_of_lt (hx.ok ha).weight_le hlt
    | false =>
      obtain ⟨-, rfl⟩ := heat
      exact hy.weight_lt hs ha

/-! ### Types -/

instance strict_path : Strict path := by
  unfold path
  infer_instance

/-- A name is a word, an integer or a path. -/
instance strict_typenameWith (arg : Parse TypeExpr) [Moving arg] (inArgs : Bool) :
    Strict (typenameWith arg inArgs) where
  weight_lt := by
    intro s s' a hs h
    obtain ⟨t, s1, ht, h⟩ := bind_eq_ok.1 h
    cases ht
    dsimp only at h
    split at h
    · next hbasic =>
      have hk : s.peek.kind ≠ .eof := by
        intro hk
        rw [hk] at hbasic
        cases hbasic
      obtain ⟨t, s2, ht, h⟩ := bind_eq_ok.1 h
      cases ht
      exact Nat.lt_of_le_of_lt (Moving.ok inferInstance h).weight_le
        (weight_advance_lt_of_kind hs hk)
    split at h
    · next hint =>
      have hk : s.peek.kind = .intLiteral := by simpa using (Bool.and_eq_true_iff.1 hint).2
      cases h
      exact weight_advance_lt_of_kind hs (by rw [hk]; decide)
    · exact Strict.weight_lt hs h

instance strict_typeRule (self : Bool → Parse TypeExpr) [∀ i, Moving (self i)] (inArgs : Bool) :
    Strict (typeRule self inArgs) := by
  unfold typeRule
  infer_instance

instance strict_typeIn (inArgs : Bool) : Strict (typeIn inArgs) where
  weight_lt {s _ _} hs h := by
    have hself : ∀ i, Moving (unfold typeRule s.weight i) :=
      moving_unfold (fun _ _ _ => inferInstance) s.weight
    exact (strict_typeRule (unfold typeRule s.weight) inArgs).weight_lt hs h

instance strict_returnType : Strict returnType := by
  unfold returnType typeUse
  infer_instance

/-- Splitting a shift keeps the weight, of which the bracket is read. -/
instance strict_templateClose : Strict templateClose where
  weight_lt := by
    intro s s' a hs h
    obtain ⟨u, s1, hu, h⟩ := bind_eq_ok.1 h
    cases hu
    obtain ⟨b, s2, hb, h⟩ := bind_eq_ok.1 h
    have heat := yields_eat .greater b s2 hb
    cases b with
    | true =>
      obtain ⟨hk, rfl⟩ := heat
      cases h
      have hstop : s.splitShift.stop = s.stop := (Moves.split (.refl s.splitShift)).stop_eq
      rw [← weight_splitShift s]
      exact weight_advance_lt_of_kind (hstop ▸ hs) (by rw [hk]; decide)
    | false => cases h

/-! ### Members and declarations -/

instance strict_enumeration (ns : List String) : Strict (enumeration ns) := by
  unfold enumeration
  dsimp only
  infer_instance

section Members

variable (h : ClassHead) (template : Option Template) (start : Span)

instance strict_methodRest (result : ReturnType) (name : String) :
    Strict (methodRest h template start result name) := by
  unfold methodRest
  infer_instance

instance strict_staticRest : Strict (staticRest h template start) := by
  unfold staticRest
  infer_instance

instance strict_ctorRest (t : Token) : Strict (ctorRest h template start t) := by
  unfold ctorRest
  split <;> infer_instance

instance strict_templatableMember : Strict (templatableMember h template start) := by
  unfold templatableMember
  infer_instance

instance strict_typedMember : Strict (typedMember h start) := by
  unfold typedMember
  infer_instance

instance strict_member : Strict (member h) := by
  unfold member
  refine Strict.of_bind fun t => ?_
  split <;> infer_instance

instance strict_classBody : Strict (classBody h start) := by
  unfold classBody
  infer_instance

end Members

instance strict_classOrForward (ns : List String) (template : Option Template) (start : Span) :
    Strict (classOrForward ns template start) := by
  unfold classOrForward
  infer_instance

instance strict_inclusion : Strict inclusion := by
  unfold inclusion
  refine @Strict.bind_left _ _ _ _ _ fun t => ?_
  split <;> infer_instance

instance strict_typedef (ns : List String) : Strict (typedef ns) := by
  unfold typedef
  infer_instance

instance strict_functionOrVariable (ns : List String) (template : Option Template)
    (start : Span) : Strict (functionOrVariable ns template start) := by
  unfold functionOrVariable
  infer_instance

instance strict_space (self : List String → Parse Declaration) [∀ ns, Moving (self ns)]
    (ns : List String) : Strict (space self ns) := by
  unfold space
  infer_instance

instance strict_declarationRule (self : List String → Parse Declaration)
    [∀ ns, Moving (self ns)] (ns : List String) : Strict (declarationRule self ns) := by
  unfold declarationRule
  refine Strict.of_bind fun t => ?_
  split <;> infer_instance

instance strict_declaration (ns : List String) : Strict (declaration ns) where
  weight_lt {s _ _} hs h := by
    have hself : ∀ ns, Moving (unfold declarationRule s.weight ns) :=
      moving_unfold (fun _ _ _ => inferInstance) s.weight
    exact (strict_declarationRule (unfold declarationRule s.weight) ns).weight_lt hs h

end Instances

end Parse

end TemplateIdl
