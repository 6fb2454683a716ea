import TemplateIdl.Proofs.Decl.Relocate
import TemplateIdl.Proofs.Grammar.Compare

/-!
# Compare — rules for declarations run on two streams

All rules for declarations follow themselves under a `Comparison`, and give declarations that
differ in their places only. The first run may stand in other namespaces than the second one.

* `Comparison.closes_enumeration`, `Comparison.closes_member`, `Comparison.closes_classOrForward`,
  `Comparison.closes_typedef` and `Comparison.closes_functionOrVariable`, the rules that end with
  a semicolon;
* `Comparison.closesAt_declarationRule`, all declarations that end with a semicolon;
* `Comparison.follows_declaration` and `Comparison.follows_interface`, all declarations.
-/

namespace TemplateIdl

open TokenStream

namespace Comparison

open Parse

set_option synthInstance.maxSize 1000

variable {C : Comparison} {s s' : TokenStream}

/-! ## Enumerations -/

theorem follows_skipEnumeratorValue :
    C.Follows skipEnumeratorValue skipEnumeratorValue Eq := by
  intro s s' hs
  refine ⟨fun hrun => ?_, fun hrun => ?_⟩
  · unfold skipEnumeratorValue at hrun ⊢
    dsimp only at hrun ⊢
    split at hrun
    · cases hrun
    · next hne =>
      cases hrun
      rcases C.value hs rfl with hlt | ⟨hn, ht⟩
      · exact .inl hlt
      · rw [hn, if_neg hne]
        exact .inr ⟨(), _, rfl, ht, rfl⟩
  · unfold skipEnumeratorValue at hrun
    dsimp only at hrun
    split at hrun
    · cases hrun
      exact (C.peek hs).span.2
    · cases hrun

theorem follows_enumerators : C.Follows enumerators enumerators Eq := by
  rw [enumerators_eq]
  refine follows_fix (I := fun _ _ => True) (P := fun _ _ => Eq)
    (fun _ _ hs => enumerators_step hs) (fun _ _ => inferInstance) ?_ trivial
  intro f hf hself i j _
  -- what follows an enumerator is read alike with and without a value
  have hmore : ∀ name : String, C.Follows
      (do
        if ← eat .comma then
          let names ← f ()
          pure (name :: names)
        else pure [name])
      (do
        if ← eat .comma then
          let names ← fix enumeratorRule ()
          pure (name :: names)
        else pure [name]) Eq := by
    intro name
    refine (follows_eat .comma).same fun b => .ite ?_ (follows_pure rfl)
    exact (hself () () trivial).same fun names => follows_pure rfl
  refine (follows_check .rightBrace).same fun b => .ite (follows_pure rfl) ?_
  refine follows_expectIdentifier.same fun name => (follows_eat .equal).same fun b => .ite ?_ ?_
  · exact follows_skipEnumeratorValue.same fun _ => hmore name
  · exact hmore name

theorem closes_enumeration {ns ns' : List String} (hns : ns = C.spaces ns') :
    C.Closes (enumeration ns) (enumeration ns')
      fun d d' => d.relocate C.left id = d'.relocate C.right C.spaces := by
  refine (follows_expect .kwEnum).bind_closes fun start start' hstart => ?_
  have hrest : ∀ isScoped : Bool, C.Closes
      (do
        let name ← expectIdentifier
        discard (expect .leftBrace)
        let names ← enumerators
        discard (expect .rightBrace)
        discard (expect .semicolon)
        let span ← spanFrom start.span
        pure ⟨name, names, isScoped, ns, span⟩)
      (do
        let name ← expectIdentifier
        discard (expect .leftBrace)
        let names ← enumerators
        discard (expect .rightBrace)
        discard (expect .semicolon)
        let span ← spanFrom start'.span
        pure ⟨name, names, isScoped, ns', span⟩)
      fun d d' : EnumDecl => d.relocate C.left id = d'.relocate C.right C.spaces := by
    intro isScoped
    refine follows_expectIdentifier.same_closes fun name => ?_
    refine (follows_expect .leftBrace).drop_closes ?_
    refine follows_enumerators.same_closes fun names => ?_
    refine (follows_expect .rightBrace).drop_closes ?_
    refine closes_end hstart.span fun a b hab => ?_
    simp only [EnumDecl.relocate, hns, hab.1, id]
  refine (follows_eat .kwClass).same_closes fun b => .ite ?_ ?_
  · exact Follows.same_closes (follows_pure rfl) hrest
  · exact (follows_eat .kwStruct).same_closes hrest

/-! ## Members -/

theorem follows_operatorSymbol : C.Follows operatorSymbol operatorSymbol Eq := by
  refine @Follows.bind _ _ _ _ _ _ _ _ _ _ _ (fun t => ?_) follows_advance fun t t' ht => ?_
  · dsimp only
    split <;> infer_instance
  dsimp only
  rw [← ht.kind, ← ht.lexeme]
  split
  · exact follows_pure rfl
  · refine .ite ?_ (.ite ?_ (follows_fail ht.span.2))
    · exact (follows_eat .rightParen).same fun b => .ite (follows_pure rfl) (follows_fail ht.span.2)
    · exact (follows_eat .rightBracket).same fun b => .ite (follows_pure rfl) (follows_fail ht.span.2)

section Members

variable {h h' : ClassHead} {template : Option Template} {start start' : Span}

/-- The heads of two classes that stand in the namespaces of the two runs. -/
structure Heads (C : Comparison) (h h' : ClassHead) : Prop where
  eq : h = h'.relocate C.spaces
  selfType : h.selfType = h'.selfType.relocate C.spaces

/-- Members that differ in their places only. -/
abbrev LikeMember (C : Comparison) (d d' : Member) : Prop :=
  d.relocate C.left id = d'.relocate C.right C.spaces

theorem closes_methodRest (hh : C.Heads h h') (hstart : C.spans start start')
    (result : ReturnType) (name : String) :
    C.Closes (methodRest h template start result name) (methodRest h' template start' result name)
      C.LikeMember := by
  refine follows_arguments.same_closes fun args => ?_
  refine (follows_eat .kwConst).same_closes fun isConst => ?_
  refine closes_end hstart fun a b hab => ?_
  simp only [LikeMember, Member.relocate, Method.relocate, hh.selfType, hab.1]
  rfl

theorem closes_staticRest (hh : C.Heads h h') (hstart : C.spans start start') :
    C.Closes (staticRest h template start) (staticRest h' template start') C.LikeMember := by
  refine follows_returnType.same_closes fun result => ?_
  refine follows_expectIdentifier.same_closes fun name => ?_
  refine follows_arguments.same_closes fun args => ?_
  refine closes_end hstart fun a b hab => ?_
  simp only [LikeMember, Member.relocate, StaticMethod.relocate, hh.selfType, hab.1]
  rfl

theorem closes_ctorRest (hh : C.Heads h h') (hstart : C.spans start start') {t t' : Token}
    (ht : C.Like t t') :
    C.Closes (ctorRest h template start t) (ctorRest h' template start' t') C.LikeMember := by
  unfold ctorRest
  have hname : h.name = h'.name := by rw [hh.eq]; rfl
  rw [← ht.lexeme, ← hname]
  split
  · refine .ite (closes_fail ht.span.2) ?_
    refine follows_arguments.same_closes fun args => ?_
    refine closes_end hstart fun a b hab => ?_
    simp only [LikeMember, Member.relocate, SpecialMethod.relocate, hh.selfType, hab.1]
    rfl
  · refine .ite ?_ (closes_fail ht.span.2)
    refine follows_arguments.same_closes fun args => ?_
    refine closes_end hstart fun a b hab => ?_
    simp only [LikeMember, Member.relocate, Constructor.relocate, hh.selfType, hab.1]
    rfl

theorem closes_templatableMember (hh : C.Heads h h') (hstart : C.spans start start') :
    C.Closes (templatableMember h template start) (templatableMember h' template start')
      C.LikeMember := by
  refine (follows_eat .kwStatic).same_closes fun b => .ite (closes_staticRest hh hstart) ?_
  refine closes_peek_bind fun s s' hs => .checkSecond_bind hs fun b b' hb => ?_
  have ht := C.peek hs
  have hsame : (decide (s'.peek.kind = .identifier) && b') =
      (decide (s.peek.kind = .identifier) && b) := by
    rw [← ht.kind]
    by_cases hk : s.peek.kind = .identifier
    · rw [hb (by rw [hk]; decide)]
    · simp [hk]
  rw [hsame]
  refine Closes.ite ?_ ?_ s s' hs
  · exact follows_advance.drop_closes (closes_ctorRest hh hstart ht)
  · refine follows_returnType.same_closes fun result => ?_
    refine follows_expectIdentifier.same_closes fun name => ?_
    exact closes_methodRest hh hstart result name

/-- The end of a variable or property: a default may stand before the semicolon. -/
theorem closes_defaultEnd {α β : Type} {Q : α → β → Prop} {make : Option String → Span → α}
    {make' : Option String → Span → β} (hstart : C.spans start start')
    (hmake : ∀ d? a b, C.spans a b → Q (make d? a) (make' d? b)) :
    C.Closes
      (do
        let default? ← optionalDefault
        discard (expect .semicolon)
        let span ← spanFrom start
        pure (make default? span))
      (do
        let default? ← optionalDefault
        discard (expect .semicolon)
        let span ← spanFrom start'
        pure (make' default? span)) Q :=
  follows_optionalDefault.same_closes fun d? => closes_end hstart (hmake d?)

theorem closes_typedMember (hh : C.Heads h h') (hstart : C.spans start start') :
    C.Closes (typedMember h start) (typedMember h' start') C.LikeMember := by
  refine follows_typeUse.same_closes fun type => ?_
  refine (follows_eat .kwOperator).same_closes fun b => .ite ?_ ?_
  · refine follows_operatorSymbol.same_closes fun symbol => ?_
    refine follows_arguments.same_closes fun args => ?_
    refine (follows_eat .kwConst).same_closes fun isConst => ?_
    refine closes_end hstart fun a b hab => ?_
    simp only [LikeMember, Member.relocate, OperatorMethod.relocate, hh.selfType, hab.1]
    rfl
  · refine follows_expectIdentifier.same_closes fun name => ?_
    refine (follows_check .leftParen).same_closes fun b => .ite ?_ ?_
    · exact closes_methodRest hh hstart _ name
    · refine closes_defaultEnd hstart fun d? a b hab => ?_
      have hns : h.namespaces = C.spaces h'.namespaces := by rw [hh.eq]; rfl
      simp only [LikeMember, Member.relocate, VariableDecl.relocate, hh.selfType, hns, hab.1]
      rfl

theorem closes_member (hh : C.Heads h h') : C.Closes (member h) (member h') C.LikeMember := by
  refine closes_peek_bind fun s s' hs => ?_
  have ht := C.peek hs
  have hns : h.namespaces = C.spaces h'.namespaces := by rw [hh.eq]; rfl
  rw [← ht.kind, ← ht.lexeme]
  generalize hk : s.peek.kind = k
  split
  · exact closes_throw ht.span.2 s s' hs
  · refine Closes.pure_bind (closes_enumeration hns) (fun d d' hd => ?_) s s' hs
    simp only [LikeMember, Member.relocate, hd]
  · refine follows_templateHeader.same_closes (fun template => ?_) s s' hs
    exact closes_templatableMember hh ht.span
  · exact closes_templatableMember hh ht.span s s' hs
  · refine .checkSecond_bind hs fun b b' hb => ?_
    rw [← hb (by rw [hk]; decide)]
    exact Closes.ite (closes_templatableMember hh ht.span) (closes_typedMember hh ht.span) s s' hs
  · exact closes_typedMember hh ht.span s s' hs
  · exact closes_typedMember hh ht.span s s' hs
  · exact Closes.ite (closes_typedMember hh ht.span) (closes_fail ht.span.2) s s' hs

theorem closes_classBody (hh : C.Heads h h') (hstart : C.spans start start') :
    C.Closes (classBody h start) (classBody h' start')
      fun c c' => c.relocate C.left id = c'.relocate C.right C.spaces := by
  refine (follows_expect .leftBrace).drop_closes ?_
  have hmore : ∀ s s', C.streams s s' →
      (s.peek.kind != .rightBrace) = (s'.peek.kind != .rightBrace) :=
    fun s s' hs => by rw [(C.peek hs).kind]
  refine (follows_manyWhile hmore (closes_member hh).follows).bind_closes fun ms ms' hms => ?_
  refine (follows_expect .rightBrace).drop_closes ?_
  refine closes_end hstart fun a b hab => ?_
  rw [ClassHead.relocate_close, ClassHead.relocate_close, map_eq_map_of_forall₂ hms, hab.1, hh.eq]
  rfl

end Members

/-! ## Classes -/

section Leaves

variable {ns ns' : List String} {template : Option Template} {start start' : Span}

/-- Declarations that differ in their places only. -/
abbrev LikeDeclaration (C : Comparison) (d d' : Declaration) : Prop :=
  d.relocate C.left id = d'.relocate C.right C.spaces

/-- Names inside the namespaces of the first run are those inside the namespaces of the second
one. -/
def Places (C : Comparison) (ns : List String) : Prop :=
  ∀ name args, Typename.ofPath (C.spaces ns) name args =
    (Typename.ofPath ns name args).relocate C.spaces

theorem follows_optionalParent : C.Follows optionalParent optionalParent Eq :=
  (follows_eat .colon).same fun _ => .ite
    (follows_typeUse.same fun _ => follows_pure rfl) (follows_pure rfl)

/-- A semicolon ends the rule, or something else does. -/
theorem closes_eatEnd {α β : Type} {Q : α → β → Prop} {x : Parse α} {y : Parse β}
    {make : Span → α} {make' : Span → β} (hstart : C.spans start start')
    (hmake : ∀ a b, C.spans a b → Q (make a) (make' b)) (hxy : C.Closes x y Q) :
    C.Closes
      (do
        if ← eat .semicolon then
          let span ← spanFrom start
          pure (make span)
        else x)
      (do
        if ← eat .semicolon then
          let span ← spanFrom start'
          pure (make' span)
        else y) Q := by
  intro s s' hs
  have hrun : ∀ {γ : Type} (start : Span) (make : Span → γ) (z : Parse γ) (t : TokenStream),
      t.stop.kind = .eof → (do
        if ← eat .semicolon then
          let span ← spanFrom start
          pure (make span)
        else z) t =
      if t.peek.kind = .semicolon then ending .semicolon start make t else z t := by
    intro γ start make z t ht
    show EStateM.bind (eat .semicolon) _ t = _
    rw [EStateM.bind, eat]
    by_cases hk : t.peek.kind = .semicolon
    · rw [if_pos hk, if_pos hk, ending_of_peek hk (ht ▸ by decide)]
      show EStateM.Result.ok (make (start.merge t.advance.previousSpan)) t.advance = _
      rw [previousSpan_advance (by rw [hk, ht]; decide)]
    · rw [if_neg hk, if_neg hk]
      rfl
  obtain ⟨hstop, hstop'⟩ := C.stop_kind hs
  have hend := closes_end hstart hmake s s' hs
  have hother := hxy s s' hs
  constructor
  · intro a t h
    rw [hrun _ _ _ _ hstop'] 
    rw [hrun _ _ _ _ hstop] at h
    rw [← (C.peek hs).kind]
    split at h
    · next hk => rw [if_pos hk]; exact hend.ok h
    · next hk => rw [if_neg hk]; exact hother.ok h
  · intro e t h
    rw [hrun _ _ _ _ hstop] at h
    split at h
    · exact hend.error h
    · exact hother.error h

theorem closes_classOrForward (hns : ns = C.spaces ns') (hplaces : C.Places ns')
    (hstart : C.spans start start') :
    C.Closes (classOrForward ns template start) (classOrForward ns' template start')
      C.LikeDeclaration := by
  refine (follows_eat .kwVirtual).same_closes fun isVirtual => ?_
  refine (follows_expect .kwClass).drop_closes ?_
  refine follows_peek.bind_closes fun t t' ht => ?_
  refine follows_typename.same_closes fun name => ?_
  refine follows_optionalParent.same_closes fun parent => ?_
  refine closes_eatEnd hstart (fun a b hab => ?_) (.ite ?_ (closes_fail ht.span.2))
  · simp only [LikeDeclaration, Declaration.relocate, ForwardDecl.relocate, hns, hab.1]
    rfl
  · refine (closes_classBody ⟨?_, ?_⟩ hstart).pure_bind fun c c' hc => ?_
    · rw [hns]
      rfl
    · rw [hns]
      exact hplaces name.name _
    · simp only [LikeDeclaration, Declaration.relocate, hc]

/-! ## Other declarations that end with a semicolon -/

theorem closes_typedef (hns : ns = C.spaces ns') :
    C.Closes (typedef ns) (typedef ns')
      fun d d' => d.relocate C.left id = d'.relocate C.right C.spaces := by
  refine (follows_expect .kwTypedef).bind_closes fun u u' hu => ?_
  refine follows_peek.bind_closes fun t t' ht => ?_
  refine follows_typeUse.same_closes fun target => ?_
  refine .ite (closes_fail ht.span.2) (.ite (closes_fail ht.span.2) ?_)
  refine follows_expectIdentifier.same_closes fun newName => ?_
  refine closes_end hu.span fun a b hab => ?_
  simp only [TypedefDecl.relocate, hns, hab.1]
  rfl

theorem closes_functionOrVariable (hns : ns = C.spaces ns') (hstart : C.spans start start') :
    C.Closes (functionOrVariable ns template start) (functionOrVariable ns' template start')
      C.LikeDeclaration := by
  refine follows_typeUse.same_closes fun type => ?_
  refine follows_expectIdentifier.same_closes fun name => ?_
  refine (follows_check .leftParen).same_closes fun b => .ite ?_ ?_
  · refine follows_arguments.same_closes fun args => ?_
    refine closes_end hstart fun a b hab => ?_
    simp only [LikeDeclaration, Declaration.relocate, FunctionDecl.relocate, hns, hab.1]
    rfl
  · refine closes_defaultEnd hstart fun d? a b hab => ?_
    simp only [LikeDeclaration, Declaration.relocate, VariableDecl.relocate, hns, hab.1]
    rfl

/-- All declarations that end with a semicolon. -/
theorem closesAt_declarationRule {self self' : List String → Parse Declaration}
    (hns : ns = C.spaces ns') (hplaces : C.Places ns') (hs : C.streams s s')
    (hspace : s.peek.kind ≠ .kwNamespace) (hinclude : s.peek.kind ≠ .includeDirective) :
    C.ClosesAt s s' (declarationRule self ns) (declarationRule self' ns') C.LikeDeclaration := by
  have ht := C.peek hs
  refine .peek_bind ?_
  rw [← ht.kind, ← ht.lexeme]
  generalize hk : s.peek.kind = k at hspace hinclude
  split
  · exact absurd rfl hinclude
  · exact absurd rfl hspace
  · refine Closes.pure_bind (closes_typedef hns) (fun d d' hd => ?_) s s' hs
    simp only [LikeDeclaration, Declaration.relocate, hd]
  · refine Closes.pure_bind (closes_enumeration hns) (fun d d' hd => ?_) s s' hs
    simp only [LikeDeclaration, Declaration.relocate, hd]
  · exact closes_classOrForward hns hplaces ht.span s s' hs
  · exact closes_classOrForward hns hplaces ht.span s s' hs
  · refine follows_templateHeader.same_closes (fun template => ?_) s s' hs
    refine follows_peek.bind_closes fun next next' hnext => ?_
    rw [← hnext.kind]
    refine .ite ?_ ?_
    · exact closes_classOrForward hns hplaces ht.span
    · exact closes_functionOrVariable hns ht.span
  · exact closes_functionOrVariable hns ht.span s s' hs
  · exact closes_functionOrVariable hns ht.span s s' hs
  · exact closes_functionOrVariable hns ht.span s s' hs
  · exact closes_throw ht.span.2 s s' hs
  · exact Closes.ite (closes_functionOrVariable hns ht.span) (closes_fail ht.span.2) s s' hs

end Leaves

/-! ## All declarations -/

theorem follows_inclusion : C.Follows inclusion inclusion
    fun d d' => C.LikeDeclaration (Declaration.inclusion d) (Declaration.inclusion d') := by
  refine @Follows.bind _ _ _ _ _ _ _ _ _ _ _ (fun t => ?_) (follows_expect .includeDirective)
    fun t t' ht => ?_
  · split <;> infer_instance
  rw [← ht.lexeme]
  split
  · refine follows_pure ?_
    simp only [LikeDeclaration, Declaration.relocate, ht.span.1]
  · exact follows_fail ht.span.2

section Spaces

variable {self self' : List String → Parse Declaration} [∀ ns, Moving (self ns)]
  [∀ ns, Moving (self' ns)] [∀ ns, Strict (self' ns)] {ns ns' : List String}

theorem follows_space (happend : ∀ ns name, C.spaces (ns ++ [name]) = C.spaces ns ++ [name])
    (hself : ∀ ns ns', ns = C.spaces ns' → C.Follows (self ns) (self' ns') C.LikeDeclaration)
    (hns : ns = C.spaces ns') :
    C.Follows (space self ns) (space self' ns') C.LikeDeclaration := by
  refine (follows_expect .kwNamespace).bind fun t t' ht => ?_
  refine follows_expectIdentifier.same fun name => ?_
  refine (follows_expect .leftBrace).drop ?_
  have hmore : ∀ s s', C.streams s s' →
      (s.peek.kind != .rightBrace) = (s'.peek.kind != .rightBrace) :=
    fun s s' hs => by rw [(C.peek hs).kind]
  have hitem := hself (ns ++ [name]) (ns' ++ [name]) (by rw [happend, hns])
  refine (follows_manyWhile hmore hitem).bind fun ds ds' hds => ?_
  refine follows_ending (by decide) ht.span fun a b hab => ?_
  simp only [LikeDeclaration, Declaration.relocate, Declaration.relocateContent_eq_map,
    map_eq_map_of_forall₂ hds, hab.1]

omit [∀ ns, Moving (self ns)] in
theorem declarationRule_include (h : s.peek.kind = .includeDirective) :
    declarationRule self ns s = (do
      let d ← inclusion
      pure (Declaration.inclusion d)) s := by
  have hpeek : Parse.peek s = .ok s.peek s := rfl
  rw [declarationRule, bind_of_ok hpeek, h]

omit [∀ ns, Moving (self ns)] in
theorem declarationRule_space (h : s.peek.kind = .kwNamespace) :
    declarationRule self ns s = space self ns s := by
  have hpeek : Parse.peek s = .ok s.peek s := rfl
  rw [declarationRule, bind_of_ok hpeek, h]

theorem follows_declarationRule
    (happend : ∀ ns name, C.spaces (ns ++ [name]) = C.spaces ns ++ [name])
    (hplaces : ∀ ns, C.Places ns)
    (hself : ∀ ns ns', ns = C.spaces ns' → C.Follows (self ns) (self' ns') C.LikeDeclaration)
    (hns : ns = C.spaces ns') :
    C.Follows (declarationRule self ns) (declarationRule self' ns') C.LikeDeclaration := by
  intro s s' hs
  have ht := C.peek hs
  by_cases hinclude : s.peek.kind = .includeDirective
  · have hrun : C.Follows
        (do
          let d ← inclusion
          pure (Declaration.inclusion d))
        (do
          let d ← inclusion
          pure (Declaration.inclusion d)) C.LikeDeclaration :=
      follows_inclusion.bind fun d d' hd => follows_pure hd
    exact (hrun s s' hs).congr (declarationRule_include hinclude)
      (declarationRule_include (ht.kind ▸ hinclude))
  by_cases hspace : s.peek.kind = .kwNamespace
  · exact (follows_space happend hself hns s s' hs).congr (declarationRule_space hspace)
      (declarationRule_space (ht.kind ▸ hspace))
  · exact (closesAt_declarationRule hns (hplaces ns') hs hspace hinclude).followsAt

end Spaces

theorem follows_declaration
    (happend : ∀ ns name, C.spaces (ns ++ [name]) = C.spaces ns ++ [name])
    (hplaces : ∀ ns, C.Places ns) {ns ns' : List String} (hns : ns = C.spaces ns') :
    C.Follows (declaration ns) (declaration ns') C.LikeDeclaration := by
  refine follows_fix (I := fun ns ns' => ns = C.spaces ns') (P := fun _ _ => C.LikeDeclaration)
    (fun ns s hs => declaration_step ns hs) (fun _ _ => inferInstance) ?_ hns
  intro f hf hself ns ns' hns
  exact @follows_declarationRule C f declaration _ _ _ ns ns' happend hplaces hself hns

/-- The rule for whole files follows itself. -/
theorem follows_interface
    (happend : ∀ ns name, C.spaces (ns ++ [name]) = C.spaces ns ++ [name])
    (hplaces : ∀ ns, C.Places ns) (hroot : C.spaces [] = []) :
    C.Follows interface interface
      fun m m' => List.Forall₂ C.LikeDeclaration m.content m'.content := by
  have hmore : ∀ s s', C.streams s s' → (s.peek.kind != .eof) = (s'.peek.kind != .eof) :=
    fun s s' hs => by rw [(C.peek hs).kind]
  have hitem : C.Follows (declaration []) (declaration []) C.LikeDeclaration :=
    follows_declaration happend hplaces hroot.symm
  exact (follows_manyWhile hmore hitem).bind fun ds ds' hds => follows_pure hds

end Comparison

end TemplateIdl
