import TemplateSyntax.Proofs.GrammarTypes
import TemplateSyntax.Script.Parser.Cover
import TemplateSyntax.Script.Parser.Declaration

/-! # Functions, classes and declarations read their stretch

The pattern that an expression is taken for has the identifiers of the expression.  What the rules for
functions, classes and declarations give has words of the text as its identifiers. -/

namespace TemplateSyntax.Script
namespace Parser

open Stretch

variable {t : Stretch} {pre : Prop} {g : Grammar} {cs : List Char}

/-! ## Expressions as patterns -/

theorem checkTarget_moves (e : Expr) : Moves cs (checkTarget e) := by
  unfold checkTarget
  exact .bind isTyped_moves fun _ => .ite (fun _ => recover_moves _) fun _ => .pure _

mutual

theorem toPattern_reads {pre : Prop} (binds : Bool) :
    ∀ {e : Expr}, (pre → t.All e) → t.Reads pre (toPattern binds e)
  | .ident id, he => by
    rw [toPattern]
    exact .pure fun h => by simpa using he h
  | .array s elements, he => by
    rw [toPattern]
    exact .bind (toElements_reads binds fun h => all_array.1 (he h)) fun _ =>
      .pure fun h => by simp [h]
  | .object s properties, he => by
    rw [toPattern]
    exact .bind (toProperties_reads binds fun h => all_object.1 (he h)) fun _ =>
      .pure fun h => by simp [h]
  | .assign s op target value, he => by
    have hall : pre → t.All (Pat.withDefault s target value) := fun h => by simpa using he h
    rw [toPattern]
    extract_lets rest
    have hrest : ∀ u, t.Reads pre (rest u) := fun _ => .pure hall
    have htarget : t.Reads pre (match target with
        | .expr e => do
          if binds then recover e.span.start
          rest ()
        | _ => rest ()) := by
      split
      · exact .ite (fun _ => .step (recover_moves _) hrest) fun _ => hrest ()
      · exact hrest ()
    exact .ite (fun _ => .step (recover_moves _) fun _ => htarget) fun _ => htarget
  | .number _, he | .literal _, he | .fn .., he | .cls .., he | .arrow .., he | .update .., he
  | .unary .., he | .binary .., he | .paren .., he | .call .., he | .compound .., he => by
    simp only [toPattern]
    refine .ite (fun _ => .step (recover_moves _) fun _ => ?_) fun _ => ?_ <;>
      exact .pure fun h => all_patExpr.2 (he h)

theorem toElements_reads {pre : Prop} (binds : Bool) :
    ∀ {as : List Arg}, (pre → t.All as) → t.Reads pre (toElements binds as)
  | [], _ => by
    rw [toElements]
    exact .pure fun _ => all_nil
  | a :: as, ha => by
    rw [toElements]
    refine .bind (toElement_reads binds _ fun h => (all_cons.1 (ha h)).1) fun _ => ?_
    refine .bind (toElements_reads binds fun h => (all_cons.1 (ha h.2)).2) fun _ => ?_
    exact .pure fun h => by simp [h]

theorem toElement_reads {pre : Prop} (binds isLast : Bool) :
    ∀ {a : Arg}, (pre → t.All a) → t.Reads pre (toElement binds isLast a)
  | .item e, ha => by
    rw [toElement]
    exact toPattern_reads binds fun h => all_item.1 (ha h)
  | .spread index e, ha => by
    have hrest : t.Reads pre (do return Pat.rest ⟨index, e.span.stop⟩ (← toPattern binds e)) :=
      .bind (toPattern_reads binds fun h => all_spread.1 (ha h)) fun _ => .pure fun h => by simp [h]
    rw [toElement]
    exact .ite (fun _ => .step (recover_moves _) fun _ => hrest) fun _ => hrest
  | .hole, _ => by
    rw [toElement]
    exact .pure fun _ => all_patHole

theorem toProperties_reads {pre : Prop} (binds : Bool) :
    ∀ {ps : List Property}, (pre → t.All ps) → t.Reads pre (toProperties binds ps)
  | [], _ => by
    rw [toProperties]
    exact .pure fun _ => all_nil
  | p :: ps, hp => by
    rw [toProperties]
    refine .bind (toProperty_reads binds _ fun h => (all_cons.1 (hp h)).1) fun _ => ?_
    refine .bind (toProperties_reads binds fun h => (all_cons.1 (hp h.2)).2) fun _ => ?_
    exact .pure fun h => by simp [h]

theorem toProperty_reads {pre : Prop} (binds isLast : Bool) :
    ∀ {p : Property}, (pre → t.All p) → t.Reads pre (toProperty binds isLast p)
  | .shorthand id, hp => by
    rw [toProperty]
    exact .pure fun h => by simpa using hp h
  | .shorthandDefault id value, hp => by
    rw [toProperty]
    exact .pure fun h => by simpa using hp h
  | .keyValue key value, hp => by
    rw [toProperty]
    refine .bind (toPattern_reads binds fun h => (all_keyValue.1 (hp h)).2) fun _ => ?_
    exact .pure fun h => all_patKeyValue.2 ⟨(all_keyValue.1 (hp h.2)).1, h.1⟩
  | .spread s e, hp => by
    have hrest : t.Reads pre (do return PatProperty.rest (← toPattern binds e)) :=
      .bind (toPattern_reads binds fun h => all_propertySpread.1 (hp h)) fun _ =>
        .pure fun h => by simp [h]
    rw [toProperty]
    exact .ite (fun _ => .step (recover_moves _) fun _ => hrest) fun _ => hrest
  | .method .., _ | .getter .., _ | .setter .., _ => by
    rw [toProperty]
    exact .throw _

end

theorem toTarget_reads {e : Expr} (he : pre → t.All e) : t.Reads pre (toTarget e) := by
  unfold toTarget
  split
  · exact toPattern_reads false he
  · exact toPattern_reads false he
  · exact toPattern_reads false he
  · refine .ite (fun _ => .bind (.throw _) fun _ => ?_) fun _ => ?_
    · exact .step (checkTarget_moves _) fun _ => .pure fun h => all_patExpr.2 (he h.2)
    · exact .step (checkTarget_moves _) fun _ => .pure fun h => all_patExpr.2 (he h)

theorem toCompoundTarget_reads {e : Expr} (he : pre → t.All e) :
    t.Reads pre (toCompoundTarget e) := by
  unfold toCompoundTarget
  split
  · exact .pure fun h => by simpa using he h
  · extract_lets last rest
    have hrest : ∀ u, t.Reads pre (rest u) := fun _ => by
      refine .ite (fun _ => .step (recover_moves _) fun _ => ?_) fun _ => ?_ <;>
        exact .pure fun h => all_patExpr.2 (he h)
    exact .ite (fun _ => .bind (.throw _) fun u => (hrest u).weaken And.right) fun _ => hrest ()

theorem checkObject_moves (e : Expr) : Moves cs (checkObject e) := by
  unfold checkObject
  split
  · split
    · exact recover_moves _
    · exact .pure _
  · exact .pure _

/-! ## Functions -/

theorem directive_reads (hg : g.Reads t) : t.Reads pre (directive g) := by
  unfold directive
  refine .step lexeme_moves fun _ => ?_
  split
  · refine .bind (attempt_reads (.bind hg.statement fun s => ?_)) fun _ => ?_
    · split
      · exact .pure fun h => h.1
      · exact unexpected_reads
    · refine .ite (fun _ => .step (.modify fun _ => ?_) fun _ => ?_) fun _ => .pure fun h => h.1
      · exact ⟨rfl, rfl, rfl, rfl, rfl⟩
      · exact .pure fun h => h.1
  · exact .pure fun _ => all_none

theorem statementsToBrace_reads (hg : g.Reads t) : t.Reads pre (statementsToBrace g) := by
  unfold statementsToBrace
  refine .bind (many_reads ?_) fun _ => .step atEnd_moves fun _ => .ite (fun _ => ?_) fun _ => ?_
  · refine .step (isPunct_moves _) fun _ => .step atEnd_moves fun _ => ?_
    refine .ite (fun _ => .pure fun _ => all_none) fun _ => ?_
    exact .bind hg.statement fun _ => .pure fun h => by simp [h]
  · exact .step start_moves fun _ => .step (recover_moves _) fun _ => .pure fun h => h.1
  · exact .step (expect_moves _) fun _ => .pure fun h => h.1

theorem functionBody_reads (hg : g.Reads t) (f : Mode → Mode) : t.Reads pre (functionBody g f) := by
  unfold functionBody
  refine inMode_reads (.step (expect_moves _) fun _ => .bind (many_reads (directive_reads hg)) fun _ => ?_)
  exact .bind (statementsToBrace_reads hg) fun _ => .pure fun h => by simp [h]

theorem functionBody?_reads (hg : g.Reads t) (f : Mode → Mode) :
    t.Reads pre (functionBody? g f) := by
  unfold functionBody?
  refine .step isTyped_moves fun _ => .step (isPunct_moves _) fun _ => .ite (fun _ => ?_) fun _ => ?_
  · exact .step semicolon_moves fun _ => .pure fun _ => all_nil
  · exact functionBody_reads hg f

theorem functionRest_reads (hg : g.Reads t) (f : Mode → Mode) : t.Reads pre (functionRest g f) := by
  unfold functionRest
  refine .bind (typeParameters?_reads hg) fun _ => .bind (inMode_reads ?_) fun _ => ?_
  · exact .step (expect_moves _) fun _ => .bind (parameters_reads hg) fun _ => .pure fun h => all_fst h.1
  · refine .bind (resultType?_reads hg) fun _ => .bind (functionBody?_reads hg f) fun _ => ?_
    exact .pure fun h => by simp [h]

theorem functionTail_reads (hg : g.Reads t) (isAsync isDeclaration : Bool) :
    t.Reads pre (functionTail g isAsync isDeclaration) := by
  unfold functionTail
  refine .step (eat_moves _) fun _ => ?_
  extract_lets own
  refine .bind (inMode_reads (.step nameHere?_moves fun _ => .ite (fun _ => ?_) fun _ => ?_)) fun id => ?_
  · exact .bind name_reads fun _ => .pure fun h => by simp [h]
  · exact .pure fun _ => all_none
  · extract_lets rest
    have hrest : ∀ u, t.Reads (t.All id ∧ pre) (rest u) := fun _ =>
      .bind (functionRest_reads hg _) fun _ => .pure fun h => by simp [h]
    exact .ite (fun _ => .bind unexpected_reads fun u => (hrest u).weaken And.right) fun _ => hrest ()

theorem getterRest_reads (hg : g.Reads t) : t.Reads pre (getterRest g) := by
  unfold getterRest
  refine .step (expect_moves _) fun _ => .step (expect_moves _) fun _ => ?_
  refine .bind (resultType?_reads hg) fun _ => .bind (functionBody?_reads hg _) fun _ => ?_
  exact .pure fun h => by simp [h]

theorem setterRest_reads (hg : g.Reads t) : t.Reads pre (setterRest g) := by
  unfold setterRest
  refine .step (expect_moves _) fun _ => .bind (parameters_reads hg) fun x => ?_
  refine .bind (functionBody?_reads hg _) fun _ => ?_
  split
  · next p hp => exact .pure fun h => by simpa [h, hp] using all_fst h.2.1
  · exact unexpected_reads

/-! ## Classes -/

theorem memberName_reads (hg : g.Reads t) : t.Reads pre (memberName g) := by
  unfold memberName
  refine .step lexeme_moves fun _ => ?_
  split
  · exact .step token_moves fun _ => .step advance_moves fun _ => .pure fun _ => by simp
  · exact propertyKey_reads hg

theorem eatMemberModifier_moves (word : String) : Moves cs (eatMemberModifier word) := by
  unfold eatMemberModifier
  refine .bind (isWord_moves _) fun _ => .ite (fun _ => ?_) fun _ => .pure _
  refine .bind peek_moves fun _ => .ite (fun _ => .pure _) fun _ => ?_
  exact .bind advance_moves fun _ => .pure _

theorem memberModifiers_moves : Moves cs memberModifiers := by
  unfold memberModifiers
  refine .bind (many_moves ?_) fun _ => .pure _
  refine .bind (eatMemberModifier_moves _) fun _ => .ite (fun _ => .pure _) fun _ => ?_
  refine .bind isTyped_moves fun _ => .bind (isWordOf_moves _) fun _ => .bind peek_moves fun _ => ?_
  exact .ite (fun _ => .bind advance_moves fun _ => .pure _) fun _ => .pure _

theorem fieldRest_reads (hg : g.Reads t) {key : Key} (hkey : pre → t.All key) :
    t.Reads pre (fieldRest g key) := by
  unfold fieldRest
  refine .step isTyped_moves fun _ => ?_
  extract_lets rest
  have hrest : ∀ u, t.Reads pre (rest u) := fun _ => by
    refine .bind (typeAnnotation?_reads hg) fun x => ?_
    extract_lets types rest
    have htypes : t.All x → t.All types := fun hx => all_getD hx all_nil
    refine .step (eat_moves _) fun _ => ?_
    have hrest : ∀ value, t.Reads (t.All value ∧ t.All x ∧ pre) (rest value) := fun value =>
      .step semicolon_moves fun _ => .pure fun h => by simp [h, hkey h.2.2, htypes h.2.1]
    refine .ite (fun _ => ?_) fun _ => .bind (.pure fun _ => all_nil) hrest
    refine .bind (inMode_reads hg.assignment) fun e => .bind (.pure fun h => ?_) fun _ => ?_
    · exact all_singleton.2 h.1
    · exact (hrest _).weaken fun h => ⟨h.1, h.2.2⟩
  refine .ite (fun _ => .step (isPunctOf_moves _) fun _ => ?_) fun _ => hrest ()
  exact .ite (fun _ => .step advance_moves hrest) fun _ => hrest ()

/-- A method behind its modifiers. -/
theorem methodMember_reads (hg : g.Reads t) (f : Mode → Mode) :
    t.Reads pre (do
      let (key, _) ← memberName g
      return Member.method key (← functionRest g f)) :=
  .bind (memberName_reads hg) fun _ => .bind (functionRest_reads hg f) fun _ =>
    .pure fun h => by simp [h, all_fst h.2.1]

theorem memberRest_reads (hg : g.Reads t) (isStatic : Bool) :
    t.Reads pre (memberRest g isStatic) := by
  unfold memberRest
  refine .step isTyped_moves fun _ => .step atIndexSignature_moves fun _ => .ite (fun _ => ?_) fun _ => ?_
  · exact .bind (indexSignature_reads hg) fun _ => .pure fun h => by simp [h]
  refine .step (eat_moves _) fun _ => .ite (fun _ => methodMember_reads hg _) fun _ => ?_
  refine .step (isWord_moves _) fun _ => .step peek_moves fun _ => .step peek_moves fun _ => ?_
  refine .ite (fun _ => .step advance_moves fun _ => .step (eat_moves _) fun _ => ?_) fun _ => ?_
  · exact methodMember_reads hg _
  refine .step (eatMemberModifier_moves _) fun _ => .ite (fun _ => ?_) fun _ => ?_
  · refine .bind (memberName_reads hg) fun _ => .step (expect_moves _) fun _ => ?_
    refine .step (expect_moves _) fun _ => .bind (resultType?_reads hg) fun _ => ?_
    exact .bind (functionBody?_reads hg _) fun _ => .pure fun h => by simp [h, all_fst h.2.2.1]
  refine .step (eatMemberModifier_moves _) fun _ => .ite (fun _ => methodMember_reads hg _) fun _ => ?_
  refine .step lexeme_moves fun _ => ?_
  extract_lets rest
  have hrest : ∀ isConstructorName, t.Reads pre (rest isConstructorName) := fun isConstructorName => by
    refine .bind (memberName_reads hg) fun key => .step isTyped_moves fun _ => ?_
    extract_lets rest
    have hrest : ∀ u, t.Reads (t.All key ∧ pre) (rest u) := fun _ => by
      refine .step (isPunctOf_moves _) fun _ => .ite (fun _ => ?_) fun _ => ?_
      · refine .bind (functionRest_reads hg _) fun f => .ite (fun _ => ?_) fun _ => ?_
        · obtain ⟨params, body⟩ := f
          exact .pure fun h => by simpa using h.1
        · exact .pure fun h => by simp [h, all_fst h.2.1]
      · exact fieldRest_reads hg fun h => all_fst h.1
    exact .ite (fun _ => .step (eat_moves _) fun _ => hrest ()) fun _ => hrest ()
  split
  · exact .step (.pure _) hrest
  · exact .step (.pure _) hrest
  · exact .step (.pure _) hrest

theorem classMember_reads (hg : g.Reads t) : t.Reads pre (classMember g) := by
  unfold classMember
  refine .step (many_moves ?_) fun _ => .step (isPunct_moves _) fun _ => ?_
  · exact .bind (eat_moves _) fun _ => .ite (fun _ => .pure _) fun _ => .pure _
  refine .ite (fun _ => .pure fun _ => all_none) fun _ => .step (isWord_moves _) fun _ => ?_
  refine .step peek_moves fun _ => .ite (fun _ => .step advance_moves fun _ => ?_) fun _ => ?_
  · refine .bind (inMode_reads (.step (expect_moves _) fun _ => statementsToBrace_reads hg)) fun _ => ?_
    exact .pure fun h => by simp [h]
  · exact .step memberModifiers_moves fun _ => .bind (memberRest_reads hg _) fun _ =>
      .pure fun h => by simp [h]

/-- An expression that types may follow, as the parent of a class or an interface. -/
theorem contract_reads (hg : g.Reads t) :
    t.Reads pre (do
      let e ← g.leftHand
      let types ← if ← atLess then typeArguments g else pure []
      return e :: types) := by
  refine .bind hg.leftHand fun _ => .step atLess_moves fun _ => .ite (fun _ => ?_) fun _ => ?_
  · exact .bind (typeArguments_reads hg) fun _ => .pure fun h => by simp [h]
  · exact .bind (.pure fun _ => all_nil) fun _ => .pure fun h => by simp [h]

theorem classRest_reads (hg : g.Reads t) : t.Reads pre (classRest g) := by
  unfold classRest
  refine inMode_reads (.bind (typeParameters?_reads hg) fun bounds => .step (eatWord_moves _) fun _ => ?_)
  extract_lets contract rest
  have hcontract : ∀ {pre : Prop}, t.Reads pre contract := contract_reads hg
  have hrest : ∀ parent, t.Reads (t.All parent ∧ t.All bounds ∧ pre) (rest parent) := fun parent => by
    refine .step isTyped_moves fun _ => .step (eatWord_moves _) fun _ => ?_
    extract_lets rest
    have hrest : ∀ contracts, t.Reads (t.All contracts ∧ t.All parent ∧ t.All bounds ∧ pre)
        (rest contracts) := fun contracts => by
      refine .step (expect_moves _) fun _ => .bind (many_reads (classMember_reads hg)) fun _ => ?_
      exact .step (expect_moves _) fun _ => .pure fun h => by simp [h]
    refine .ite (fun _ => .bind hcontract fun first => ?_) fun _ => .bind (.pure fun _ => all_nil) hrest
    refine .bind (many_reads (.step (eat_moves _) fun _ => .ite (fun _ => ?_) fun _ => ?_)) fun _ => ?_
    · exact .bind hcontract fun _ => .pure fun h => all_some.2 h.1
    · exact .pure fun _ => all_none
    · refine .bind (.pure fun h => ?_) fun _ => (hrest _).weaken fun h => ⟨h.1, h.2.2.2⟩
      exact all_append.2 ⟨h.2.1, all_flatten.2 h.1⟩
  refine .ite (fun _ => ?_) fun _ => .bind (.pure fun _ => all_nil) hrest
  refine .bind hg.leftHand fun e => .step isTyped_moves fun _ => .step atLess_moves fun _ => ?_
  extract_lets last
  have hlast : ∀ types, t.Reads (t.All types ∧ t.All e ∧ t.All bounds ∧ pre) (last types) :=
    fun types => .bind (.pure fun h => all_cons.2 ⟨h.2.1, h.1⟩) fun _ =>
      (hrest _).weaken fun h => ⟨h.1, h.2.2.2⟩
  refine .ite (fun _ => .bind (typeArguments_reads hg) hlast) fun _ => ?_
  exact .bind (.pure fun _ => all_nil) hlast

theorem classTail_reads (hg : g.Reads t) (isDeclaration : Bool) :
    t.Reads pre (classTail g isDeclaration) := by
  unfold classTail
  refine .step isTyped_moves fun _ => .step (isWord_moves _) fun _ => ?_
  extract_lets rest named
  have hrest : ∀ id, t.Reads (t.All id ∧ pre) (rest id) := fun id => by
    refine .ite (fun _ => .bind unexpected_reads fun _ => ?_) fun _ => ?_
    · exact .bind (classRest_reads hg) fun _ => .pure fun h => by simp [h]
    · exact .bind (classRest_reads hg) fun _ => .pure fun h => by simp [h]
  have hnamed : ∀ isName, t.Reads pre (named isName) := fun isName => by
    refine .ite (fun _ => .bind name_reads fun _ => ?_) fun _ => .bind (.pure fun _ => all_none) hrest
    refine .bind (.pure fun h => ?_) fun _ => (hrest _).weaken fun h => ⟨h.1, h.2.2⟩
    exact all_some.2 h.1
  refine .ite (fun _ => .step peek_moves fun _ => .step (.pure _) hnamed) fun _ => ?_
  exact .step nameHere?_moves fun _ => .step (.pure _) hnamed

/-! ## Variables -/

theorem atLetDeclaration_moves : Moves cs atLetDeclaration := by
  unfold atLetDeclaration
  refine .bind (isWord_moves _) fun _ => .ite (fun _ => .pure _) fun _ => .bind peek_moves fun _ => ?_
  split <;> exact .pure _

theorem atVarDeclaration_moves : Moves cs atVarDeclaration := by
  unfold atVarDeclaration
  exact .bind (isWordOf_moves _) fun _ => .bind atLetDeclaration_moves fun _ => .pure _

theorem declarator_reads (hg : g.Reads t) (word : String) (inLoop isAmbient : Bool) :
    t.Reads pre (declarator g word inLoop isAmbient) := by
  have hplain : ∀ {x : Pat × List Expr} {pre : Prop},
      t.Reads (t.All x ∧ pre) (pure (Declarator.mk x.1 [])) := .pure fun h => by
    simp [all_fst h.1]
  unfold declarator
  refine .step start_moves fun first => .step (isWord_moves _) fun _ => ?_
  extract_lets pattern
  have hpattern : ∀ u, t.Reads pre (pattern u) := fun _ => by
    refine .bind hg.binding fun p => ?_
    extract_lets rest
    have hrest : ∀ u, t.Reads (t.All p ∧ pre) (rest u) := fun _ => by
      refine .bind (annotated_reads hg (fun h => h.1) _) fun x => .step (isWordOf_moves _) fun _ => ?_
      refine .ite (fun _ => hplain) fun _ => .step (eat_moves _) fun _ => .ite (fun _ => ?_) fun _ => ?_
      · exact .bind hg.assignment fun _ => .pure fun h => by simp [h, all_fst h.2.1]
      refine .ite (fun _ => hplain) fun _ => .step mode_moves fun _ => .ite (fun _ => ?_) fun _ => ?_
      · exact .step (recover_moves _) fun _ => hplain
      · split
        · next hx => exact .pure fun h => by simpa [hx] using all_fst h.1
        · exact .throw _
    split
    · refine .step isTyped_moves fun _ => .ite (fun _ => ?_) fun _ => hrest ()
      exact .step (eat_moves _) fun _ => hrest ()
    · exact hrest ()
  exact .ite (fun _ => .bind unexpected_reads fun u => (hpattern u).weaken And.right) fun _ =>
    hpattern ()

theorem declarators_reads (hg : g.Reads t) (word : String) (inLoop isAmbient : Bool) :
    t.Reads pre (declarators g word inLoop isAmbient) := by
  unfold declarators
  refine .bind (declarator_reads hg _ _ _) fun _ => .bind (many_reads ?_) fun _ => ?_
  · refine .step start_moves fun _ => .step (eat_moves _) fun _ => ?_
    refine .ite (fun _ => .pure fun _ => all_none) fun _ => .step (isPunct_moves _) fun _ => ?_
    refine .step atEnd_moves fun _ => .ite (fun _ => ?_) fun _ => ?_
    · exact .step (recover_moves _) fun _ => .pure fun _ => all_none
    · exact .bind (declarator_reads hg _ _ _) fun _ => .pure fun h => by simp [h]
  · exact .pure fun h => by simp [h]

theorem skipStatement_moves (hg : g.Reads t) : Moves t.text (skipStatement g) := by
  have hexpr : t.Reads True g.expression := hg.expression
  unfold skipStatement
  refine .bind (eat_moves _) fun _ => .ite (fun _ => .pure _) fun _ => ?_
  refine .bind endsStatement_moves fun _ => .ite (fun _ => .pure _) fun _ => ?_
  refine .bind start_moves fun _ => .bind (recover_moves _) fun _ => ?_
  refine .bind (orElseFrom_moves (.bind hexpr.moves fun _ => .pure _) fun _ => .pure _) fun _ => ?_
  refine .bind (many_moves ?_) fun _ => .bind (eat_moves _) fun _ => .pure _
  refine .bind endsStatement_moves fun _ => .ite (fun _ => .pure _) fun _ => ?_
  exact .bind advance_moves fun _ => .pure _

theorem varStatement_reads (hg : g.Reads t) (isAmbient : Bool) :
    t.Reads pre (varStatement g isAmbient) := by
  unfold varStatement
  refine .step start_moves fun _ => .step anyWord_moves fun id => ?_
  extract_lets word last rest
  have hlast : ∀ ds, t.Reads (t.All ds ∧ pre) (last ds) := fun ds => by
    refine .step (skipStatement_moves hg) fun _ => .step (spanFrom_moves _) fun _ => ?_
    exact .pure fun h => by simp [h]
  have hrest : ∀ u, t.Reads pre (rest u) := fun _ => by
    refine .step (isPunct_moves _) fun _ => .ite (fun _ => .bind (.pure fun _ => all_nil) hlast) fun _ => ?_
    exact .bind (inMode_reads (declarators_reads hg _ _ _)) hlast
  refine .step (isPunct_moves _) fun _ => .ite (fun _ => ?_) fun _ => hrest ()
  exact .step lastStop_moves fun _ => .step (recover_moves _) hrest

/-! ## Functions and classes in a place for declarations -/

theorem functionDeclaration_reads (hg : g.Reads t) : t.Reads pre (functionDeclaration g) := by
  unfold functionDeclaration
  refine .step start_moves fun _ => .step (eatWord_moves _) fun _ => .step (expectWord_moves _) fun _ => ?_
  refine .bind (functionTail_reads hg _ _) fun _ => .step (spanFrom_moves _) fun _ => ?_
  exact .pure fun h => all_fnDecl.2 (all_snd h.1)

theorem classDeclaration_reads (hg : g.Reads t) : t.Reads pre (classDeclaration g) := by
  unfold classDeclaration
  refine .step start_moves fun _ => .step (expectWord_moves _) fun _ => ?_
  refine .bind (classTail_reads hg _) fun _ => .step (spanFrom_moves _) fun _ => ?_
  exact .pure fun h => all_classDecl.2 (all_snd h.1)

theorem atAsyncFunction_moves : Moves cs atAsyncFunction := by
  unfold atAsyncFunction
  refine .bind (isWord_moves _) fun _ => .ite (fun _ => .pure _) fun _ => ?_
  exact .bind peek_moves fun _ => .pure _

/-! ## Declarations of typed code -/

theorem otherDeclaration_reads (first : Nat) {exprs : List Expr} {body : List Stmt}
    (hexprs : pre → t.All exprs) (hbody : pre → t.All body) :
    t.Reads pre (otherDeclaration first exprs body) := by
  unfold otherDeclaration
  exact .step (spanFrom_moves _) fun _ => .pure fun h => all_plain.2 ⟨hexprs h, hbody h⟩

theorem enumRest_reads (hg : g.Reads t) (first : Nat) : t.Reads pre (enumRest g first) := by
  unfold enumRest
  refine .step anyWord_moves fun _ => .step (expect_moves _) fun _ => .bind (commaList_reads ?_) fun _ => ?_
  · refine .bind (propertyKey_reads hg) fun _ => .step (eat_moves _) fun _ => .ite (fun _ => ?_) fun _ => ?_
    · exact .bind hg.assignment fun _ => .pure fun h => by simp [h]
    · exact .pure fun _ => all_nil
  · exact otherDeclaration_reads _ (fun h => all_flatten.2 h.1) fun _ => all_nil

theorem interfaceRest_reads (hg : g.Reads t) (first : Nat) :
    t.Reads pre (interfaceRest g first) := by
  unfold interfaceRest
  refine .step anyWord_moves fun _ => .bind (typeParameters?_reads hg) fun bounds => ?_
  extract_lets parent rest
  have hparent : ∀ {pre : Prop}, t.Reads pre parent := contract_reads hg
  refine .step (eatWord_moves _) fun _ => ?_
  have hrest : ∀ parents, t.Reads (t.All parents ∧ t.All bounds ∧ pre) (rest parents) :=
    fun parents => .bind (typeMembers_reads hg) fun _ =>
      otherDeclaration_reads _ (fun h => by simp [h]) fun _ => all_nil
  refine .ite (fun _ => .bind hparent fun _ => ?_) fun _ => .bind (.pure fun _ => all_nil) hrest
  refine .bind (many_reads (.step (eat_moves _) fun _ => .ite (fun _ => ?_) fun _ => ?_)) fun _ => ?_
  · exact .bind hparent fun _ => .pure fun h => all_some.2 h.1
  · exact .pure fun _ => all_none
  · refine .bind (.pure fun h => ?_) fun _ => (hrest _).weaken fun h => ⟨h.1, h.2.2.2⟩
    exact all_append.2 ⟨h.2.1, all_flatten.2 h.1⟩

theorem aliasRest_reads (hg : g.Reads t) (first : Nat) : t.Reads pre (aliasRest g first) := by
  unfold aliasRest
  refine .step anyWord_moves fun _ => .bind (typeParameters?_reads hg) fun _ => ?_
  refine .step (expect_moves _) fun _ => .bind hg.typing fun _ => .step semicolon_moves fun _ => ?_
  exact otherDeclaration_reads _ (fun h => by simp [h]) fun _ => all_nil

theorem namespaceBody_reads (hg : g.Reads t) : t.Reads pre (namespaceBody g) := by
  unfold namespaceBody
  refine .step (expect_moves _) fun _ => .bind (many_reads ?_) fun _ => .step atEnd_moves fun _ => ?_
  · refine .step (isPunct_moves _) fun _ => .step atEnd_moves fun _ => ?_
    refine .ite (fun _ => .pure fun _ => all_none) fun _ => .step (eatWord_moves _) fun _ => ?_
    exact .bind hg.statement fun _ => .pure fun h => by simp [h]
  · refine .ite (fun _ => .step start_moves fun _ => .step (recover_moves _) fun _ => ?_) fun _ => ?_
    · exact .pure fun h => h.1
    · exact .step (expect_moves _) fun _ => .pure fun h => h.1

theorem namespaceRest_reads (hg : g.Reads t) (first : Nat) :
    t.Reads pre (namespaceRest g first) := by
  unfold namespaceRest
  refine .step anyWord_moves fun _ => .step dottedNames_moves fun _ => ?_
  exact .bind (namespaceBody_reads hg) fun _ =>
    otherDeclaration_reads _ (fun _ => all_nil) fun h => h.1

theorem ambientModuleRest_reads (hg : g.Reads t) (first : Nat) :
    t.Reads pre (ambientModuleRest g first) := by
  unfold ambientModuleRest
  refine .step advance_moves fun _ => .step (isPunct_moves _) fun _ => .ite (fun _ => ?_) fun _ => ?_
  · exact .bind (namespaceBody_reads hg) fun _ =>
      otherDeclaration_reads _ (fun _ => all_nil) fun h => h.1
  · exact .step semicolon_moves fun _ =>
      otherDeclaration_reads _ (fun _ => all_nil) fun _ => all_nil

/-- A declaration that is there under a condition. -/
theorem declarationIf_reads {c : Prop} [Decidable c] {p : Parser Stmt} (h : t.Reads pre p) :
    t.Reads pre (if c then return some (← p) else return none) :=
  .ite (fun _ => .bind h fun _ => .pure fun h => all_some.2 h.1) fun _ => .pure fun _ => all_none

theorem typedDeclaration?_reads (hg : g.Reads t) (first : Nat) (word : String) :
    t.Reads pre (typedDeclaration? g first word) := by
  unfold typedDeclaration?
  refine .step nameHere?_moves fun x => ?_
  extract_lets atName
  refine .step afterBreak_moves fun _ => ?_
  extract_lets onLine
  split
  · refine .step (isWord_moves _) fun _ => .ite (fun _ => ?_) fun _ => .pure fun _ => all_none
    refine .bind (classDeclaration_reads hg) fun _ => ?_
    split
    · exact .pure fun h => by simpa using h.1
    · exact .pure fun h => all_some.2 h.1
  · exact declarationIf_reads (enumRest_reads hg _)
  · exact declarationIf_reads (interfaceRest_reads hg _)
  · refine .step lexeme_moves fun _ => ?_
    split
    · exact declarationIf_reads (ambientModuleRest_reads hg _)
    · exact declarationIf_reads (namespaceRest_reads hg _)
  · exact declarationIf_reads (namespaceRest_reads hg _)
  · exact declarationIf_reads (aliasRest_reads hg _)
  · refine .step (isPunct_moves _) fun _ => .ite (fun _ => ?_) fun _ => .pure fun _ => all_none
    refine .bind (namespaceBody_reads hg) fun _ => .bind (otherDeclaration_reads _ (fun _ => all_nil) ?_)
      fun _ => .pure fun h => all_some.2 h.1
    exact fun h => h.1
  · exact .pure fun _ => all_none

@[simp] theorem all_startingAt {first : Nat} {s : Stmt} : t.All (startingAt first s) ↔ t.All s := by
  cases s <;> simp [startingAt]

theorem constEnum_reads (hg : g.Reads t) (first : Nat) : t.Reads pre (constEnum g first) := by
  unfold constEnum
  exact .step (expectWord_moves _) fun _ => .step (expectWord_moves _) fun _ => enumRest_reads hg _

theorem ambientDeclaration?_reads (hg : g.Reads t) (first : Nat) :
    t.Reads pre (ambientDeclaration? g first) := by
  unfold ambientDeclaration?
  refine .step (isWord_moves _) fun _ => .ite (fun _ => ?_) fun _ => ?_
  · exact .bind (functionDeclaration_reads hg) fun _ => .pure fun h => by simp [h]
  refine .step (isWord_moves _) fun _ => .ite (fun _ => ?_) fun _ => ?_
  · exact .bind (classDeclaration_reads hg) fun _ => .pure fun h => by simp [h]
  refine .step (isWord_moves _) fun _ => .step peek_moves fun _ => .ite (fun _ => ?_) fun _ => ?_
  · exact .bind (constEnum_reads hg _) fun _ => .pure fun h => by simp [h]
  refine .step (isWordOf_moves _) fun _ => .ite (fun _ => ?_) fun _ => ?_
  · exact .bind (varStatement_reads hg _) fun _ => .pure fun h => by simp [h]
  refine .step lexeme_moves fun _ => ?_
  split
  · refine .ite (fun _ => .pure fun _ => all_none) fun _ => .step advance_moves fun _ => ?_
    refine .bind (typedDeclaration?_reads hg _ _) fun x => .pure fun h => ?_
    cases x <;> simp_all
  · exact .pure fun _ => all_none

theorem declarationOf?_reads (hg : g.Reads t) (first : Nat) (word : String) :
    t.Reads pre (declarationOf? g first word) := by
  unfold declarationOf?
  exact .ite (fun _ => ambientDeclaration?_reads hg _) fun _ => typedDeclaration?_reads hg _ _

end Parser
end TemplateSyntax.Script
