import TemplateSyntax.Proofs.ScriptReads
import TemplateSyntax.Script.Parser.Typing

/-! # Patterns and types read their stretch

What the rules for patterns, parameters and types give has words of the text as its identifiers, if
the rules that they refer to are of that kind. -/

namespace TemplateSyntax.Script

/-- The rules read a stretch. -/
structure Grammar.Reads (t : Stretch) (g : Grammar) : Prop where
  unary {pre : Prop} : t.Reads pre g.unary
  leftHand {pre : Prop} : t.Reads pre g.leftHand
  assignment {pre : Prop} : t.Reads pre g.assignment
  expression {pre : Prop} : t.Reads pre g.expression
  binding {pre : Prop} : t.Reads pre g.binding
  statement {pre : Prop} : t.Reads pre g.statement
  substatement {pre : Prop} : t.Reads pre g.substatement
  typing {pre : Prop} : t.Reads pre g.typing

namespace Parser

open Stretch
open Text (From)

variable {t : Stretch} {pre : Prop} {g : Grammar} {cs : List Char}

/-! ## Patterns -/

theorem propertyKey_reads (hg : g.Reads t) : t.Reads pre (propertyKey g) := by
  refine ⟨fun s hs => ?_⟩
  unfold propertyKey
  refine .step (token_moves s hs) fun tok s' heq _ _ => ?_
  obtain ⟨rfl, rfl⟩ := EStateM.Result.ok.inj heq
  split
  · next n escaped hx =>
    exact takeWord_reads hs hx fun _ => .pure fun h => by simp [h]
  · exact (Reads.step advance_moves fun _ => .pure fun h => by simp).run s hs
  · exact (Reads.step advance_moves fun _ => .pure fun h => by simp).run s hs
  · exact (Reads.step advance_moves fun _ => .pure fun h => by simp).run s hs
  · refine (Reads.step advance_moves fun _ => .bind (inMode_reads hg.assignment) fun e => ?_).run s hs
    exact .step (expect_moves _) fun _ => .pure fun h => by simp [h]
  · exact unexpected_reads.run s hs

theorem typeAnnotation?_reads (hg : g.Reads t) : t.Reads pre (typeAnnotation? g) := by
  unfold typeAnnotation?
  refine .step isTyped_moves fun _ => .step (isPunct_moves _) fun _ => .ite (fun _ => ?_) fun _ => ?_
  · exact .step advance_moves fun _ => .bind hg.typing fun _ => .pure fun h => by simp [h]
  · exact .pure fun _ => all_none

theorem withDefault_reads (hg : g.Reads t) {left : Pat} (hleft : pre → t.All left) (start : Nat) :
    t.Reads pre (withDefault g left start) := by
  unfold withDefault
  refine .step (eat_moves _) fun _ => .ite (fun _ => ?_) fun _ => .pure hleft
  refine .bind (inMode_reads hg.assignment) fun _ => .step (spanFrom_moves _) fun _ => ?_
  exact .pure fun h => by simp [h, hleft h.2]

theorem bindingElement_reads (hg : g.Reads t) : t.Reads pre (bindingElement g) := by
  unfold bindingElement
  exact .step start_moves fun _ => .bind hg.binding fun _ => withDefault_reads hg (fun h => h.1) _

theorem checkRestIsLast_moves (isRest : Bool) (close : String) :
    Moves cs (checkRestIsLast isRest close) := by
  unfold checkRestIsLast
  refine .bind (isPunct_moves _) fun _ => .ite (fun _ => ?_) fun _ => .pure _
  exact .bind lastStop_moves fun _ => recover_moves _

theorem arrayPatternElement_reads (hg : g.Reads t) : t.Reads pre (arrayPatternElement g) := by
  unfold arrayPatternElement
  refine .step (isPunct_moves _) fun _ => .ite (fun _ => .pure fun _ => all_none) fun _ => ?_
  refine .step atEnd_moves fun _ => .ite (fun _ => .pure fun _ => all_none) fun _ => ?_
  refine .step (eat_moves _) fun _ => .ite (fun _ => .pure fun _ => by simp) fun _ => ?_
  refine .step start_moves fun _ => .step (eat_moves _) fun _ => ?_
  extract_lets rest
  have hrest : ∀ p, t.Reads (t.All p ∧ pre) (rest p) := fun p => by
    refine .step (isPunct_moves _) fun _ => .ite (fun _ => ?_) fun _ => .pure fun h => by simp [h]
    refine .step (expect_moves _) fun _ => .step (checkRestIsLast_moves _ _) fun _ => ?_
    exact .pure fun h => by simp [h]
  refine .ite (fun _ => ?_) fun _ => .bind (bindingElement_reads hg) hrest
  refine .bind hg.binding fun _ => .step (spanFrom_moves _) fun _ => ?_
  exact .bind (.pure fun h => by simp [h]) fun _ => (hrest _).weaken fun h => ⟨h.1, h.2.2⟩

theorem recoverInnerRests_moves (ps : List Pat) : Moves cs (recoverInnerRests ps) := by
  fun_induction recoverInnerRests ps with
  | case1 => exact .pure _
  | case2 s argument p ps _ ih => exact .bind (recover_moves _) fun _ => ih
  | case3 p ps _ ih => exact ih
  | case4 => exact .pure _

theorem arrayPattern_reads (hg : g.Reads t) : t.Reads pre (arrayPattern g) := by
  unfold arrayPattern
  refine .step start_moves fun _ => .step (expect_moves _) fun _ => ?_
  refine .bind (many_reads (arrayPatternElement_reads hg)) fun elements => ?_
  refine .step (recoverInnerRests_moves _) fun _ => .step (expect_moves _) fun _ => ?_
  exact .step (spanFrom_moves _) fun _ => .pure fun h => by simp [h]

theorem objectPatternProperty_reads (hg : g.Reads t) : t.Reads pre (objectPatternProperty g) := by
  unfold objectPatternProperty
  refine .step (eat_moves _) fun _ => .ite (fun _ => ?_) fun _ => ?_
  · exact .bind hg.binding fun _ => .pure fun h => by simp [h]
  refine .bind (propertyKey_reads hg) fun (key, word) => ?_
  refine .step (eat_moves _) fun _ => .ite (fun _ => ?_) fun _ => ?_
  · exact .bind (bindingElement_reads hg) fun _ => .pure fun h => by simp_all
  split
  · exact unexpected_reads
  · next id =>
    refine .step (eat_moves _) fun _ => .ite (fun _ => ?_) fun _ => ?_
    · exact .bind (inMode_reads hg.assignment) fun _ => .pure fun h => by simp_all
    refine .step mode_moves fun _ => .ite (fun _ => ?_) fun _ => .pure fun h => by simp_all
    exact .step (recover_moves _) fun _ => .pure fun h => by simp_all

theorem objectPattern_reads (hg : g.Reads t) : t.Reads pre (objectPattern g) := by
  unfold objectPattern
  refine .step start_moves fun _ => .step (expect_moves _) fun _ => ?_
  refine .bind (commaList_reads (objectPatternProperty_reads hg)) fun _ => ?_
  exact .step (spanFrom_moves _) fun _ => .pure fun h => by simp [h]

theorem bindingTarget_reads (hg : g.Reads t) : t.Reads pre (bindingTarget g) := by
  unfold bindingTarget
  refine .step lexeme_moves fun _ => ?_
  split
  · exact arrayPattern_reads hg
  · exact objectPattern_reads hg
  · exact .bind name_reads fun _ => .pure fun h => by simp [h]

@[simp] theorem all_withSpan {p : Pat} {span : Span} : t.All (withSpan p span) ↔ t.All p := by
  cases p <;> simp [withSpan]

theorem annotated_reads (hg : g.Reads t) {p : Pat} (hp : pre → t.All p) (start : Nat) :
    t.Reads pre (annotated g p start) := by
  unfold annotated
  refine .bind (typeAnnotation?_reads hg) fun x => ?_
  split
  · next types => exact .step (spanFrom_moves _) fun _ => .pure fun h => by simp_all
  · exact .pure fun h => by simp [hp h.2]

theorem skipParameterModifiers_moves : Moves cs skipParameterModifiers := by
  unfold skipParameterModifiers
  refine .bind (many_moves ?_) fun _ => .pure _
  refine .bind isTyped_moves fun _ => .bind (isWordOf_moves _) fun _ => .ite (fun _ => .pure _) fun _ => ?_
  refine .bind peek_moves fun _ => ?_
  split
  · exact .bind advance_moves fun _ => .pure _
  · exact .bind advance_moves fun _ => .pure _
  · exact .bind advance_moves fun _ => .pure _
  · exact .pure _

theorem plainParameter_reads (hg : g.Reads t) : t.Reads pre (plainParameter g) := by
  unfold plainParameter
  refine .step start_moves fun _ => .step isTyped_moves fun _ => .step (isWord_moves _) fun _ => ?_
  extract_lets rest
  have hrest : ∀ p, t.Reads (t.All p ∧ pre) (rest p) := fun p => by
    refine .step isTyped_moves fun _ => ?_
    extract_lets rest
    have hrest : ∀ u, t.Reads (t.All p ∧ pre) (rest u) := fun _ => by
      refine .bind (annotated_reads hg (fun h => h.1) _) fun x => ?_
      refine .bind (withDefault_reads hg (fun h => h.1.1) _) fun _ => ?_
      exact .pure fun h => all_pair.2 ⟨h.1, h.2.1.2⟩
    exact .ite (fun _ => .step (eat_moves _) fun _ => hrest ()) fun _ => hrest ()
  refine .ite (fun _ => ?_) fun _ => .bind hg.binding hrest
  refine .bind anyWord_reads fun _ => .bind (.pure fun h => by simp [h]) fun _ => ?_
  exact (hrest _).weaken fun h => ⟨h.1, h.2.2⟩

theorem restParameter_reads (hg : g.Reads t) : t.Reads pre (restParameter g) := by
  unfold restParameter
  refine .step start_moves fun _ => .step (expect_moves _) fun _ => .bind hg.binding fun inner => ?_
  refine .step (isPunct_moves _) fun _ => ?_
  extract_lets rest
  have hrest : ∀ p, t.Reads (t.All p ∧ t.All inner ∧ pre) (rest p) := fun p => by
    refine .bind (typeAnnotation?_reads hg) fun _ => .step (spanFrom_moves _) fun _ => ?_
    exact .pure fun h => all_pair.2 ⟨by simp [h], all_getD h.1 all_nil⟩
  refine .ite (fun _ => ?_) fun _ => .bind (.pure fun h => h.1) hrest
  exact .step (recover_moves _) fun _ => .bind (withDefault_reads hg (fun h => h.1) _) hrest

theorem parameter_reads (hg : g.Reads t) : t.Reads pre (parameter g) := by
  unfold parameter
  refine .step (isPunct_moves _) fun _ => .step atEnd_moves fun _ => ?_
  refine .ite (fun _ => .pure fun _ => all_none) fun _ => .step skipParameterModifiers_moves fun _ => ?_
  refine .step (isPunct_moves _) fun _ => ?_
  extract_lets rest
  have hrest : ∀ p, t.Reads (t.All p ∧ pre) (rest p) := fun p => by
    refine .step (isPunct_moves _) fun _ => .ite (fun _ => ?_) fun _ => .pure fun h => all_some.2 h.1
    refine .step (expect_moves _) fun _ => .step (checkRestIsLast_moves _ _) fun _ => ?_
    exact .pure fun h => all_some.2 h.1
  exact .ite (fun _ => .bind (restParameter_reads hg) hrest) fun _ =>
    .bind (plainParameter_reads hg) hrest

theorem parameters_reads (hg : g.Reads t) : t.Reads pre (parameters g) := by
  unfold parameters
  refine .bind (many_reads (parameter_reads hg)) fun ps => .step (recoverInnerRests_moves _) fun _ => ?_
  refine .step (expect_moves _) fun _ => .pure fun h => ?_
  exact all_pair.2 ⟨all_map_fst h.1, all_flatten.2 (all_map_snd h.1)⟩

/-! ## Types -/

theorem typeParameter_reads (hg : g.Reads t) : t.Reads pre (typeParameter g) := by
  unfold typeParameter
  refine .step (many_moves ?_) fun _ => .step name_moves fun _ => .step (eatWord_moves _) fun _ => ?_
  · refine .bind (isWordOf_moves _) fun _ => .ite (fun _ => ?_) fun _ => .pure _
    refine .bind peek_moves fun _ => ?_
    split
    · exact .bind advance_moves fun _ => .pure _
    · exact .pure _
  extract_lets rest
  have hrest : ∀ bound, t.Reads (t.All bound ∧ pre) (rest bound) := fun bound => by
    refine .step (eat_moves _) fun _ => .ite (fun _ => ?_) fun _ => ?_
    · exact .bind hg.typing fun _ => .pure fun h => by simp [h]
    · exact .bind (.pure fun _ => all_nil) fun _ => .pure fun h => by simp [h]
  exact .ite (fun _ => .bind hg.typing hrest) fun _ => .bind (.pure fun _ => all_nil) hrest

theorem angleList_reads {item : Parser (List Expr)} (h : ∀ {pre : Prop}, t.Reads pre item) :
    t.Reads pre (angleList item) := by
  unfold angleList
  refine .step expectLess_moves fun _ => ?_
  extract_lets atClose
  have hclose : Moves t.text atClose := by
    refine .bind lexeme_moves fun _ => ?_
    split <;> exact .pure _
  refine .bind (many_reads ?_) fun _ => .step expectGreater_moves fun _ => .pure fun h => by simp [h]
  intro pre
  refine .step hclose fun _ => .ite (fun _ => .pure fun _ => all_none) fun _ => ?_
  refine .bind h fun _ => .step hclose fun _ => .ite (fun _ => ?_) fun _ => .pure fun h => by simp [h]
  exact .step (expect_moves _) fun _ => .pure fun h => by simp [h]

theorem typeParameters?_reads (hg : g.Reads t) : t.Reads pre (typeParameters? g) := by
  unfold typeParameters?
  refine .step isTyped_moves fun _ => .step (isPunct_moves _) fun _ => ?_
  exact .ite (fun _ => angleList_reads (typeParameter_reads hg)) fun _ => .pure fun _ => all_nil

theorem typeArguments_reads (hg : g.Reads t) : t.Reads pre (typeArguments g) :=
  angleList_reads hg.typing

theorem resultType_reads (hg : g.Reads t) : t.Reads pre (resultType g) := by
  unfold resultType
  extract_lets isClaim
  refine .step lexeme_moves fun _ => ?_
  split
  · refine .step peek_moves fun _ => ?_
    split
    · refine .ite (fun _ => hg.typing) fun _ => .step advance_moves fun _ => ?_
      refine .step anyWord_moves fun _ => .step (eatWord_moves _) fun _ => ?_
      exact .ite (fun _ => hg.typing) fun _ => .pure fun _ => all_nil
    · exact hg.typing
  · refine .step peek_moves fun _ => .ite (fun _ => ?_) fun _ => hg.typing
    exact .step advance_moves fun _ => .step advance_moves fun _ => hg.typing
  · exact hg.typing

theorem resultType?_reads (hg : g.Reads t) : t.Reads pre (resultType? g) := by
  unfold resultType?
  refine .step isTyped_moves fun _ => .step (isPunct_moves _) fun _ => .ite (fun _ => ?_) fun _ => ?_
  · exact .step advance_moves fun _ => resultType_reads hg
  · exact .pure fun _ => all_nil

theorem signature_reads (hg : g.Reads t) (arrow : String) : t.Reads pre (signature g arrow) := by
  unfold signature
  refine .bind (typeParameters?_reads hg) fun _ => .step (expect_moves _) fun _ => ?_
  refine .bind (parameters_reads hg) fun x => .ite (fun _ => ?_) fun _ => ?_
  · exact .bind (resultType?_reads hg) fun _ => .pure fun h => by simp [h, all_snd h.2.1]
  · refine .step (expect_moves _) fun _ => .bind (resultType_reads hg) fun _ => ?_
    exact .pure fun h => by simp [h, all_snd h.2.1]

theorem memberEnd_moves : Moves cs memberEnd := by
  unfold memberEnd
  exact .bind (eat_moves _) fun _ => .ite (fun _ => .pure _) fun _ => semicolon_moves

theorem memberKey_reads (hg : g.Reads t) : t.Reads pre (memberKey g) := by
  unfold memberKey
  refine .bind (propertyKey_reads hg) fun x => ?_
  split
  · exact .pure fun h => by simp_all
  · exact .pure fun h => by simp_all
  · exact .pure fun _ => all_nil

theorem eatModifier_moves (names : List String) : Moves cs (eatModifier names) := by
  unfold eatModifier
  refine .bind (isWordOf_moves _) fun _ => .ite (fun _ => ?_) fun _ => .pure _
  refine .bind peek_moves fun _ => .ite (fun _ => .pure _) fun _ => ?_
  exact .bind advance_moves fun _ => .pure _

theorem atIndexSignature_moves : Moves cs atIndexSignature := by
  unfold atIndexSignature
  exact .bind (isPunct_moves _) fun _ => .ite (fun _ => .pure _) fun _ => succeeds_moves _

theorem indexSignature_reads (hg : g.Reads t) : t.Reads pre (indexSignature g) := by
  unfold indexSignature
  refine .step (expect_moves _) fun _ => .step name_moves fun _ => .step (expect_moves _) fun _ => ?_
  refine .bind hg.typing fun _ => .step (expect_moves _) fun _ => ?_
  refine .bind (typeAnnotation?_reads hg) fun _ => .step memberEnd_moves fun _ => ?_
  exact .pure fun h => all_append.2 ⟨h.2.1, all_getD h.1 all_nil⟩

/-- The types behind a key or the word `new`, as the end of a member. -/
theorem signatureMember_reads (hg : g.Reads t) :
    t.Reads pre (do
      let types ← signature g ":"
      memberEnd
      return types) :=
  .bind (signature_reads hg _) fun _ => .step memberEnd_moves fun _ => .pure fun h => h.1

theorem typeMember_reads (hg : g.Reads t) : t.Reads pre (typeMember g) := by
  unfold typeMember
  refine .step (isPunctOf_moves _) fun _ => .ite (fun _ => signatureMember_reads hg) fun _ => ?_
  refine .step (isWord_moves _) fun _ => .step peek_moves fun _ => .ite (fun _ => ?_) fun _ => ?_
  · exact .step advance_moves fun _ => signatureMember_reads hg
  refine .step (eatModifier_moves _) fun _ => .step atIndexSignature_moves fun _ => ?_
  refine .ite (fun _ => indexSignature_reads hg) fun _ => ?_
  refine .step (eatModifier_moves _) fun _ => .bind (memberKey_reads hg) fun key => ?_
  refine .step (eat_moves _) fun _ => .step (isPunctOf_moves _) fun _ => ?_
  extract_lets rest
  have hrest : ∀ types, t.Reads (t.All types ∧ t.All key ∧ pre) (rest types) := fun types =>
    .step memberEnd_moves fun _ => .pure fun h => by simp [h]
  refine .ite (fun _ => .bind (signature_reads hg _) hrest) fun _ => ?_
  refine .bind (typeAnnotation?_reads hg) fun x => .bind (.pure fun h => ?_) fun _ => ?_
  · exact all_getD h.1 all_nil
  · exact (hrest _).weaken fun h => ⟨h.1, h.2.2⟩

theorem typeMembers_reads (hg : g.Reads t) : t.Reads pre (typeMembers g) := by
  unfold typeMembers
  refine .step (expect_moves _) fun _ => .bind (many_reads ?_) fun _ => ?_
  · refine .step (isPunct_moves _) fun _ => .ite (fun _ => .pure fun _ => all_none) fun _ => ?_
    exact .bind (typeMember_reads hg) fun _ => .pure fun h => all_some.2 h.1
  · exact .step (expect_moves _) fun _ => .pure fun h => by simp [h]

theorem mappedModifier_moves {p : Parser Bool} (h : Moves cs p) : Moves cs (mappedModifier p) := by
  unfold mappedModifier
  refine .bind (isPunctOf_moves _) fun _ => .ite (fun _ => ?_) fun _ => .bind h fun _ => .pure _
  exact .bind advance_moves fun _ => .bind h fun _ => .pure _

theorem mappedType_reads (hg : g.Reads t) : t.Reads pre (mappedType g) := by
  unfold mappedType
  refine .step (expect_moves _) fun _ => .step (mappedModifier_moves (eatWord_moves _)) fun _ => ?_
  refine .step (expect_moves _) fun _ => .step name_moves fun _ => .step (expectWord_moves _) fun _ => ?_
  refine .bind hg.typing fun keys => .step (eatWord_moves _) fun _ => ?_
  extract_lets rest
  have hrest : ∀ names, t.Reads (t.All names ∧ t.All keys ∧ pre) (rest names) := fun names => by
    refine .step (expect_moves _) fun _ => .step (mappedModifier_moves (eat_moves _)) fun _ => ?_
    refine .bind (typeAnnotation?_reads hg) fun _ => .step (eat_moves _) fun _ => ?_
    refine .step (expect_moves _) fun _ => .pure fun h => ?_
    exact all_append.2 ⟨by simp [h], all_getD h.1 all_nil⟩
  exact .ite (fun _ => .bind hg.typing hrest) fun _ => .bind (.pure fun _ => all_nil) hrest

theorem tupleElement_reads (hg : g.Reads t) : t.Reads pre (tupleElement g) := by
  unfold tupleElement
  refine .step (eat_moves _) fun _ => .step (succeeds_moves _) fun _ => ?_
  extract_lets rest
  have hrest : ∀ u, t.Reads pre (rest u) := fun _ =>
    .bind hg.typing fun _ => .step (eat_moves _) fun _ => .pure fun h => h.1
  refine .ite (fun _ => .step anyWord_moves fun _ => ?_) fun _ => hrest ()
  exact .step (eat_moves _) fun _ => .step (expect_moves _) hrest

theorem dottedNames_moves : Moves cs dottedNames := by
  unfold dottedNames
  refine .bind (many_moves (.bind (isPunct_moves _) fun _ => .ite (fun _ => ?_) fun _ => .pure _))
    fun _ => .pure _
  exact .bind advance_moves fun _ => .bind anyWord_moves fun _ => .pure _

theorem typeArguments?_reads (hg : g.Reads t) : t.Reads pre (typeArguments? g) := by
  unfold typeArguments?
  refine .step atLess_moves fun _ => .step afterBreak_moves fun _ => ?_
  exact .ite (fun _ => typeArguments_reads hg) fun _ => .pure fun _ => all_nil

/-- The parts of a template stand behind each other, from an index that is not before the last
token. -/
theorem templateTypeParts_reads {item : Parser (List Expr)} (h : ∀ {pre : Prop}, t.Reads pre item)
    (start fuel : Nat) {s : ParseState} {rest : List Char} {index : Nat}
    (hfrom : From t.text index rest) (hle : s.lastStop ≤ index) (hs : s.At t.text) :
    t.ReadsFrom pre s (templateTypeParts item start fuel rest index) := by
  induction fuel generalizing s rest index pre with
  | zero => exact (Reads.throw _).run s hs
  | succ fuel ih =>
    have hend := Lexeme.templateEnd_leaves index rest
    unfold templateTypeParts
    split
    · exact (Reads.throw _).run s hs
    · next rest' stop hx =>
      rw [hx] at hend
      refine .step (resume_leads (hend.place hfrom) (Nat.le_trans hle hend.le)) fun _ s' _ hs' _ => ?_
      exact (Reads.pure fun _ => all_nil).run s' hs'
    · next rest' stop hx =>
      rw [hx] at hend
      refine .step (resume_leads (hend.place hfrom) (Nat.le_trans hle hend.le)) fun _ s' _ hs' _ => ?_
      refine .bind (h.run s' hs') fun types s₁ _ hs₁ _ => ?_
      refine .step (isPunct_moves _ s₁ hs₁) fun closed s₂ _ hs₂ _ => ?_
      extract_lets more
      have hmore : ∀ u, t.Reads (t.All types ∧ pre) (more u) := fun _ => by
        refine ⟨fun s₃ hs₃ => .step (Moves.get s₃ hs₃) fun s₄ s₅ heq _ _ => ?_⟩
        obtain ⟨rfl, rfl⟩ := EStateM.Result.ok.inj heq
        refine .bind (ih hs₃.rest hs₃.le_stop hs₃) fun _ s₆ _ hs₆ _ => ?_
        exact (Reads.pure fun h => by simp [h]).run s₆ hs₆
      exact (Reads.ite (fun _ => .bind unexpected_reads fun u => (hmore u).weaken And.right)
        fun _ => hmore ()).run s₂ hs₂

theorem templateType_reads (hg : g.Reads t) : t.Reads pre (templateType g) := by
  unfold templateType
  refine ⟨fun s hs => .step (Moves.get s hs) fun s₁ s₂ heq _ _ => ?_⟩
  obtain ⟨rfl, rfl⟩ := EStateM.Result.ok.inj heq
  exact templateTypeParts_reads hg.typing _ _ hs.rest hs.le_stop hs

theorem primaryType_reads (hg : g.Reads t) : t.Reads pre (primaryType g) := by
  have hnames : ∀ {pre : Prop}, t.Reads pre (do dottedNames; typeArguments? g) :=
    .step dottedNames_moves fun _ => typeArguments?_reads hg
  have hliteral : ∀ {pre : Prop}, t.Reads pre (do advance; return ([] : List Expr)) :=
    .step advance_moves fun _ => .pure fun _ => all_nil
  unfold primaryType
  refine .step lexeme_moves fun _ => ?_
  split
  · refine .step advance_moves fun _ => .step (isWord_moves _) fun _ => ?_
    refine .ite (fun _ => hg.typing) fun _ => .step anyWord_moves fun _ => hnames
  · refine .step advance_moves fun _ => .step (expect_moves _) fun _ => .bind hg.typing fun _ => ?_
    refine .step (expect_moves _) fun _ => .step dottedNames_moves fun _ => ?_
    exact .bind (typeArguments?_reads hg) fun _ => .pure fun h => by simp [h]
  · refine .ite (fun _ => .bind unexpected_reads fun _ => ?_) fun _ => ?_
    · exact .step advance_moves fun _ => hnames
    · exact .step advance_moves fun _ => hnames
  · exact hliteral
  · exact hliteral
  · exact hliteral
  · refine .step advance_moves fun _ => .step lexeme_moves fun _ => ?_
    split
    · exact hliteral
    · exact hliteral
    · exact unexpected_reads
  · exact templateType_reads hg
  · refine .step (succeeds_moves _) fun _ => ?_
    exact .ite (fun _ => mappedType_reads hg) fun _ => typeMembers_reads hg
  · refine .step advance_moves fun _ => .bind (commaList_reads (tupleElement_reads hg)) fun _ => ?_
    exact .pure fun h => by simp [h]
  · refine .step advance_moves fun _ => .bind hg.typing fun _ => .step (expect_moves _) fun _ => ?_
    exact .pure fun h => h.1
  · exact unexpected_reads

theorem operatorType_reads (hg : g.Reads t) : t.Reads pre (operatorType g) := by
  unfold operatorType
  refine .step (many_moves ?_) fun _ => .bind (primaryType_reads hg) fun _ => ?_
  · refine .bind (isWordOf_moves _) fun _ => .bind peek_moves fun _ => ?_
    exact .ite (fun _ => .bind advance_moves fun _ => .pure _) fun _ => .pure _
  refine .bind (many_reads ?_) fun _ => .pure fun h => by simp [h]
  refine .step (isPunct_moves _) fun _ => .step afterBreak_moves fun _ => ?_
  refine .ite (fun _ => .step advance_moves fun _ => ?_) fun _ => .pure fun _ => all_none
  refine .step (eat_moves _) fun _ => .ite (fun _ => .pure fun _ => by simp) fun _ => ?_
  exact .bind hg.typing fun _ => .step (expect_moves _) fun _ => .pure fun h => by simp [h]

theorem typeOperands_reads {op : String} {item : Parser (List Expr)}
    (h : ∀ {pre : Prop}, t.Reads pre item) : t.Reads pre (typeOperands op item) := by
  unfold typeOperands
  refine .step (eat_moves _) fun _ => .bind h fun _ => .bind (many_reads ?_) fun _ => ?_
  · refine .step (eat_moves _) fun _ => .ite (fun _ => ?_) fun _ => .pure fun _ => all_none
    exact .bind h fun _ => .pure fun h => by simp [h]
  · exact .pure fun h => by simp [h]

theorem unionType_reads (hg : g.Reads t) : t.Reads pre (unionType g) :=
  typeOperands_reads (typeOperands_reads (operatorType_reads hg))

theorem atFunctionType_moves (g : Grammar) : Moves cs (atFunctionType g) := by
  unfold atFunctionType
  refine .bind (isPunct_moves _) fun _ => .ite (fun _ => .pure _) fun _ => ?_
  exact .bind (isPunct_moves _) fun _ => .ite (fun _ => .pure _) fun _ => succeeds_moves _

theorem anyType_reads (hg : g.Reads t) : t.Reads pre (anyType g) := by
  unfold anyType
  refine .step (atFunctionType_moves g) fun _ => .ite (fun _ => signature_reads hg _) fun _ => ?_
  refine .step (isWord_moves _) fun _ => .step peek_moves fun _ => .ite (fun _ => ?_) fun _ => ?_
  · exact .step advance_moves fun _ => .step advance_moves fun _ => signature_reads hg _
  refine .step (isWord_moves _) fun _ => .ite (fun _ => ?_) fun _ => ?_
  · exact .step advance_moves fun _ => signature_reads hg _
  refine .bind (unionType_reads hg) fun _ => .step (isWord_moves _) fun _ => ?_
  refine .step afterBreak_moves fun _ => .ite (fun _ => ?_) fun _ => .pure fun h => h.1
  refine .step advance_moves fun _ => .bind (unionType_reads hg) fun _ => ?_
  refine .step (expect_moves _) fun _ => .bind hg.typing fun _ => .step (expect_moves _) fun _ => ?_
  exact .bind hg.typing fun _ => .pure fun h => by simp [h]

end Parser

end TemplateSyntax.Script
