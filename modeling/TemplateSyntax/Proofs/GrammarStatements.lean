import TemplateSyntax.Proofs.GrammarExpressions
import TemplateSyntax.Script.Parser

/-! # Statements and scripts read their stretch

What the rules for statements give has words of the text as its identifiers.  With that, all rules read
their stretch when those of the level below do, and so the rules of every level do. -/

namespace TemplateSyntax.Script
namespace Parser

open Stretch

variable {t : Stretch} {pre : Prop} {g : Grammar} {cs : List Char} {s : ParseState}

instance : HasIdents LoopHead where
  all P
    | .steps init exprs => HasIdents.all P init ∧ HasIdents.all P exprs
    | .each _ head right => HasIdents.all P head ∧ HasIdents.all P right

@[simp] theorem all_steps {init : List Stmt} {exprs : List Expr} :
    t.All (LoopHead.steps init exprs) ↔ t.All init ∧ t.All exprs := Iff.rfl

@[simp] theorem all_each {isOf : Bool} {head : ForHead} {right : Expr} :
    t.All (LoopHead.each isOf head right) ↔ t.All head ∧ t.All right := Iff.rfl

/-! ## Parts of statements -/

theorem plainFrom_reads (kind : StmtKind) (first : Nat) {exprs : List Expr} {body : List Stmt}
    (hexprs : pre → t.All exprs) (hbody : pre → t.All body) :
    t.Reads pre (plainFrom kind first exprs body) := by
  unfold plainFrom
  exact .step (spanFrom_moves _) fun _ => .pure fun h => all_plain.2 ⟨hexprs h, hbody h⟩

/-- A statement without parts. -/
theorem emptyFrom_reads (kind : StmtKind) (first : Nat) :
    t.Reads pre (plainFrom kind first [] []) :=
  plainFrom_reads kind first (fun _ => all_nil) fun _ => all_nil

theorem wholeExpression_reads (hg : g.Reads t) : t.Reads pre (wholeExpression g) :=
  inMode_reads hg.expression

theorem condition_reads (hg : g.Reads t) : t.Reads pre (condition g) := by
  unfold condition
  refine .step (expect_moves _) fun _ => .bind (wholeExpression_reads hg) fun _ => ?_
  exact .step (expect_moves _) fun _ => .pure fun h => h.1

theorem loopBody_reads (hg : g.Reads t) : t.Reads pre (loopBody g) := inMode_reads hg.substatement

theorem blockBody_reads (hg : g.Reads t) : t.Reads pre (blockBody g) :=
  .step (expect_moves _) fun _ => statementsToBrace_reads hg

/-! ## Jumps -/

theorem jumpAllowed_moves (isBreak : Bool) (label : Option Ident) :
    Moves cs (jumpAllowed isBreak label) := .bind mode_moves fun _ => .pure _

theorem jumpStatement_reads (isBreak : Bool) : t.Reads pre (jumpStatement isBreak) := by
  unfold jumpStatement
  refine .step start_moves fun first => .step advance_moves fun _ => .step (eat_moves _) fun _ => ?_
  extract_lets last rest
  have hrest : ∀ label, t.Reads pre (rest label) := fun label => by
    refine .step (jumpAllowed_moves _ _) fun _ => .ite (fun _ => ?_) fun _ => emptyFrom_reads _ _
    exact .step (recover_moves _) fun _ => emptyFrom_reads _ _
  refine .ite (fun _ => .step (.pure _) hrest) fun _ => .step endsStatement_moves fun _ => ?_
  refine .ite (fun _ => .step (.pure _) hrest) fun _ => .step name_moves fun _ => ?_
  exact .step semicolon_moves fun _ => .step (.pure _) hrest

theorem returnStatement_reads (hg : g.Reads t) : t.Reads pre (returnStatement g) := by
  unfold returnStatement
  refine .step start_moves fun first => .step advance_moves fun _ => .step endsStatement_moves fun _ => ?_
  extract_lets rest
  have hrest : ∀ value, t.Reads (t.All value ∧ pre) (rest value) := fun value => by
    have hlast : t.Reads (t.All value ∧ pre) (plainFrom .returnStmt first value []) :=
      plainFrom_reads _ _ (fun h => h.1) fun _ => all_nil
    refine .step semicolon_moves fun _ => .step mode_moves fun _ => .ite (fun _ => ?_) fun _ => hlast
    exact .step (recover_moves _) fun _ => hlast
  refine .ite (fun _ => .bind (.pure fun _ => all_nil) hrest) fun _ => ?_
  refine .bind (wholeExpression_reads hg) fun _ => .bind (.pure fun h => ?_) fun _ => ?_
  · exact all_singleton.2 h.1
  · exact (hrest _).weaken fun h => ⟨h.1, h.2.2⟩

theorem throwStatement_reads (hg : g.Reads t) : t.Reads pre (throwStatement g) := by
  unfold throwStatement
  refine .step start_moves fun first => .step advance_moves fun _ => .step afterBreak_moves fun _ => ?_
  extract_lets rest
  have hrest : ∀ u, t.Reads pre (rest u) := fun _ => by
    refine .bind (wholeExpression_reads hg) fun _ => .step semicolon_moves fun _ => ?_
    exact plainFrom_reads _ _ (fun h => all_singleton.2 h.1) fun _ => all_nil
  exact .ite (fun _ => .bind unexpected_reads fun u => (hrest u).weaken And.right) fun _ => hrest ()

/-! ## Branches -/

theorem ifStatement_reads (hg : g.Reads t) : t.Reads pre (ifStatement g) := by
  unfold ifStatement
  refine .step start_moves fun first => .step advance_moves fun _ => .step (expect_moves _) fun _ => ?_
  refine .bind (wholeExpression_reads hg) fun test => .step (eat_moves _) fun _ => .ite (fun _ => ?_) fun _ => ?_
  · refine .step start_moves fun _ => .step (recover_moves _) fun _ => ?_
    exact plainFrom_reads _ _ (fun h => all_singleton.2 h.1) fun _ => all_nil
  refine .bind hg.substatement fun yes => .step (eatWord_moves _) fun _ => ?_
  extract_lets rest
  have hrest : ∀ no, t.Reads (t.All no ∧ t.All yes ∧ t.All test ∧ pre) (rest no) := fun no =>
    plainFrom_reads _ _ (fun h => by simp [h]) fun h => by simp [h]
  refine .ite (fun _ => ?_) fun _ => .bind (.pure fun _ => all_nil) hrest
  refine .bind hg.substatement fun _ => .bind (.pure fun h => all_singleton.2 h.1) fun _ => ?_
  exact (hrest _).weaken fun h => ⟨h.1, h.2.2⟩

theorem switchCase_reads (hg : g.Reads t) (afterDefault : Bool) :
    t.Reads pre (switchCase g afterDefault) := by
  unfold switchCase
  refine .step (isWord_moves _) fun isDefault => .step advance_moves fun _ => ?_
  extract_lets last rest
  have hlast : ∀ test, t.Reads (t.All test ∧ pre) (last test) := fun test => by
    refine .step (expect_moves _) fun _ => .bind (many_reads ?_) fun _ => .pure fun h => ?_
    · refine .step (isWordOf_moves _) fun _ => .step (isPunct_moves _) fun _ => ?_
      refine .ite (fun _ => .pure fun _ => all_none) fun _ => ?_
      exact .bind hg.statement fun _ => .pure fun h => all_some.2 h.1
    · exact all_pair.2 ⟨trivial, all_pair.2 ⟨h.2.1, h.1⟩⟩
  have hrest : ∀ u, t.Reads pre (rest u) := fun _ => by
    refine .ite (fun _ => .bind (.pure fun _ => all_nil) hlast) fun _ => ?_
    refine .bind (wholeExpression_reads hg) fun _ => .bind (.pure fun h => all_singleton.2 h.1) fun _ => ?_
    exact (hlast _).weaken fun h => ⟨h.1, h.2.2⟩
  exact .ite (fun _ => .bind unexpected_reads fun u => (hrest u).weaken And.right) fun _ => hrest ()

theorem switchCases_reads (hg : g.Reads t) (fuel : Nat) (afterDefault : Bool) :
    t.Reads pre (switchCases g fuel afterDefault) := by
  induction fuel generalizing afterDefault pre with
  | zero => exact .pure fun _ => by simp
  | succ fuel ih =>
    unfold switchCases
    refine .step (isWordOf_moves _) fun _ => .ite (fun _ => .pure fun _ => by simp) fun _ => ?_
    refine .bind (switchCase_reads hg _) fun x => .bind (ih _) fun y => .pure fun h => ?_
    exact all_pair.2 ⟨all_append.2 ⟨h.2.1.2.1, h.1.1⟩, all_append.2 ⟨h.2.1.2.2, h.1.2⟩⟩

theorem switchStatement_reads (hg : g.Reads t) : t.Reads pre (switchStatement g) := by
  unfold switchStatement
  refine .step start_moves fun first => .step advance_moves fun _ => .bind (condition_reads hg) fun _ => ?_
  refine .step (expect_moves _) fun _ => .bind (inMode_reads (.step .get fun _ => ?_)) fun _ => ?_
  · exact switchCases_reads hg _ _
  · refine .step (expect_moves _) fun _ => ?_
    exact plainFrom_reads _ _ (fun h => all_cons.2 ⟨h.2.1, h.1.1⟩) fun h => h.1.2

/-! ## Exceptions -/

theorem catchParameter_reads (hg : g.Reads t) : t.Reads pre (catchParameter g) := by
  unfold catchParameter
  refine .step (eat_moves _) fun _ => .ite (fun _ => .step start_moves fun _ => ?_) fun _ => ?_
  · refine .bind hg.binding fun _ => .bind (annotated_reads hg (fun h => h.1) _) fun _ => ?_
    exact .step (expect_moves _) fun _ => .pure fun h => all_singleton.2 (all_fst h.1)
  · exact .pure fun _ => all_nil

theorem catchClause?_reads (hg : g.Reads t) : t.Reads pre (catchClause? g) := by
  unfold catchClause?
  refine .step (eatWord_moves _) fun _ => .ite (fun _ => ?_) fun _ => .pure fun _ => all_none
  exact .bind (catchParameter_reads hg) fun _ => .bind (blockBody_reads hg) fun _ =>
    .pure fun h => by simp [h]

theorem finallyClause?_reads (hg : g.Reads t) : t.Reads pre (finallyClause? g) := by
  unfold finallyClause?
  refine .step (eatWord_moves _) fun _ => .ite (fun _ => ?_) fun _ => .pure fun _ => all_none
  exact .bind (blockBody_reads hg) fun _ => .pure fun h => by simp [h]

theorem tryStatement_reads (hg : g.Reads t) : t.Reads pre (tryStatement g) := by
  unfold tryStatement
  refine .step start_moves fun first => .step advance_moves fun _ => .bind (blockBody_reads hg) fun body => ?_
  refine .step start_moves fun clauses => .bind (catchClause?_reads hg) fun handler => ?_
  refine .bind (finallyClause?_reads hg) fun finalizer => ?_
  extract_lets rest
  have hrest : ∀ u, t.Reads (t.All finalizer ∧ t.All handler ∧ t.All body ∧ pre) (rest u) := fun _ => by
    refine .step (spanFrom_moves _) fun _ => .pure fun h => ?_
    have hhandler : t.All (handler.getD ([], [])) := all_getD h.2.1 (all_pair.2 ⟨all_nil, all_nil⟩)
    exact all_tryCatch.2 ⟨h.2.2.1, hhandler.1, hhandler.2, all_getD h.1 all_nil⟩
  exact .ite (fun _ => .step (recover_moves _) hrest) fun _ => hrest ()

theorem strayClauses_reads (hg : g.Reads t) : t.Reads pre (strayClauses g) := by
  unfold strayClauses
  refine .step start_moves fun _ => .step (recover_moves _) fun _ => ?_
  exact .bind (catchClause?_reads hg) fun _ => .bind (finallyClause?_reads hg) fun _ =>
    emptyFrom_reads _ _

/-! ## Loops -/

theorem whileStatement_reads (hg : g.Reads t) : t.Reads pre (whileStatement g) := by
  unfold whileStatement
  refine .step start_moves fun _ => .step advance_moves fun _ => .bind (condition_reads hg) fun _ => ?_
  refine .bind (loopBody_reads hg) fun _ => ?_
  exact plainFrom_reads _ _ (fun h => by simp [h]) fun h => by simp [h]

theorem doStatement_reads (hg : g.Reads t) : t.Reads pre (doStatement g) := by
  unfold doStatement
  refine .step start_moves fun _ => .step advance_moves fun _ => .bind (loopBody_reads hg) fun _ => ?_
  refine .step (expectWord_moves _) fun _ => .bind (condition_reads hg) fun _ => ?_
  refine .step (eat_moves _) fun _ => ?_
  exact plainFrom_reads _ _ (fun h => by simp [h]) fun h => by simp [h]

theorem stepsRest_reads (hg : g.Reads t) {init : List Stmt} (hinit : pre → t.All init) :
    t.Reads pre (stepsRest g init) := by
  unfold stepsRest
  refine .step (isPunct_moves _) fun _ => ?_
  extract_lets rest
  have hrest : ∀ test, t.Reads (t.All test ∧ pre) (rest test) := fun test => by
    refine .step (expect_moves _) fun _ => .step (isPunct_moves _) fun _ => .ite (fun _ => ?_) fun _ => ?_
    · exact .bind (.pure fun _ => all_nil) fun _ => .pure fun h => by simp [h, hinit h.2.2]
    · exact .bind (wholeExpression_reads hg) fun _ => .bind (.pure fun h => all_singleton.2 h.1) fun _ =>
        .pure fun h => by simp [h, hinit h.2.2.2]
  refine .ite (fun _ => .bind (.pure fun _ => all_nil) hrest) fun _ => ?_
  refine .bind (wholeExpression_reads hg) fun _ => .bind (.pure fun h => all_singleton.2 h.1) fun _ => ?_
  exact (hrest _).weaken fun h => ⟨h.1, h.2.2⟩

theorem eachRest_reads (hg : g.Reads t) {head : ForHead} (hhead : pre → t.All head) :
    t.Reads pre (eachRest g head) := by
  unfold eachRest
  refine .step (isWord_moves _) fun isOf => .step advance_moves fun _ => .bind (inMode_reads ?_) fun _ => ?_
  · exact .ite (fun _ => hg.assignment) fun _ => hg.expression
  · exact .pure fun h => all_each.2 ⟨hhead h.2, h.1⟩

theorem checkEachDeclaration_moves (ds : List Declarator) : Moves cs (checkEachDeclaration ds) := by
  unfold checkEachDeclaration
  split
  · refine .bind (isWord_moves _) fun _ => .bind mode_moves fun _ => ?_
    exact .ite (fun _ => recover_moves _) fun _ => .pure _
  · split
    · exact recover_moves _
    · exact .pure _

theorem declaredHead_reads (hg : g.Reads t) : t.Reads pre (declaredHead g) := by
  unfold declaredHead
  refine .step start_moves fun _ => .step anyWord_moves fun id => ?_
  extract_lets word
  refine .bind (inMode_reads (declarators_reads hg _ _ _)) fun ds => .step (isWordOf_moves _) fun _ => ?_
  refine .ite (fun _ => .step (checkEachDeclaration_moves _) fun _ => ?_) fun _ => ?_
  · exact eachRest_reads hg fun h => all_declaration.2 h.1
  · refine .step (spanFrom_moves _) fun _ => .step (expect_moves _) fun _ => ?_
    exact stepsRest_reads hg fun h => by simp [h]

theorem loopHead_reads (hg : g.Reads t) : t.Reads pre (loopHead g) := by
  unfold loopHead
  refine .step atVarDeclaration_moves fun _ => .ite (fun _ => declaredHead_reads hg) fun _ => ?_
  refine .step (eat_moves _) fun _ => .ite (fun _ => stepsRest_reads hg fun _ => all_nil) fun _ => ?_
  refine .bind (inMode_reads hg.expression) fun _ => .step (isWordOf_moves _) fun _ => ?_
  refine .ite (fun _ => .bind (toPattern_reads _ fun h => h.1) fun _ => ?_) fun _ => ?_
  · exact eachRest_reads hg fun h => all_target.2 h.1
  · refine .step (expect_moves _) fun _ => .step (checkObject_moves _) fun _ => ?_
    exact stepsRest_reads hg fun h => by simp [h]

theorem forStatement_reads (hg : g.Reads t) : t.Reads pre (forStatement g) := by
  unfold forStatement
  refine .step start_moves fun _ => .step advance_moves fun _ => .step start_moves fun _ => ?_
  refine .step (eatWord_moves _) fun _ => .step (expect_moves _) fun _ => ?_
  refine .bind (loopHead_reads hg) fun head => .step (expect_moves _) fun _ => ?_
  refine .bind (loopBody_reads hg) fun _ => .step (spanFrom_moves _) fun _ => ?_
  split
  · refine .ite (fun _ => .step (.throw _) fun _ => ?_) fun _ => ?_ <;>
      exact .pure fun h => all_forLoop.2 (by simp_all)
  · exact .pure fun h => all_forEach.2 (by simp_all)
  · refine .ite (fun _ => .step (.throw _) fun _ => ?_) fun _ => ?_ <;>
      exact .pure fun h => all_forEach.2 (by simp_all)

/-! ## Other statements -/

theorem withStatement_reads (hg : g.Reads t) : t.Reads pre (withStatement g) := by
  unfold withStatement
  refine .step start_moves fun _ => .step isTyped_moves fun _ => .step mode_moves fun _ => ?_
  extract_lets rest
  have hrest : ∀ u, t.Reads pre (rest u) := fun _ => by
    refine .step advance_moves fun _ => .bind (condition_reads hg) fun _ => .bind hg.substatement fun _ => ?_
    exact plainFrom_reads _ _ (fun h => by simp [h]) fun h => by simp [h]
  exact .ite (fun _ => .step (recover_moves _) hrest) fun _ => hrest ()

theorem labeledRest_reads (hg : g.Reads t) (label : Ident) : t.Reads pre (labeledRest g label) := by
  unfold labeledRest
  refine .step mode_moves fun _ => ?_
  extract_lets rest
  have hrest : ∀ u, t.Reads pre (rest u) := fun _ => by
    refine .step (isWord_moves _) fun _ => .bind (inMode_reads (.ite (fun _ => ?_) fun _ => ?_)) fun _ => ?_
    · exact functionDeclaration_reads hg
    · exact hg.substatement
    · exact plainFrom_reads _ _ (fun _ => all_nil) fun h => by simp [h]
  exact .ite (fun _ => .step (recover_moves _) hrest) fun _ => hrest ()

theorem expressionStatement_reads (hg : g.Reads t) : t.Reads pre (expressionStatement g) := by
  unfold expressionStatement
  refine .step start_moves fun first => .bind (wholeExpression_reads hg) fun e => ?_
  extract_lets rest
  have hrest : ∀ u, t.Reads (t.All e ∧ pre) (rest u) := fun _ =>
    .step semicolon_moves fun _ => .step (spanFrom_moves _) fun _ => .pure fun h => by simp [h]
  split
  · refine .step (eat_moves _) fun _ => .ite (fun _ => labeledRest_reads hg _) fun _ => ?_
    refine .step isTyped_moves fun _ => .ite (fun _ => ?_) fun _ => hrest ()
    refine .bind (declarationOf?_reads hg _ _) fun x => ?_
    split
    · exact .pure fun h => all_some.1 h.1
    · exact (hrest ()).weaken And.right
  · exact .step (checkObject_moves _) hrest

theorem importStatement_reads (hg : g.Reads t) : t.Reads pre (importStatement g) := by
  unfold importStatement
  refine .step start_moves fun _ => .step peek_moves fun _ => .step (isWord_moves _) fun _ => ?_
  refine .ite (fun _ => .bind (wholeExpression_reads hg) fun _ => ?_) fun _ => unexpected_reads
  exact .step (eat_moves _) fun _ => .step (spanFrom_moves _) fun _ => .pure fun h => by simp [h]

theorem startsTypedDeclaration_moves : Moves cs startsTypedDeclaration := by
  unfold startsTypedDeclaration
  refine .bind peek_moves fun _ => ?_
  split
  · exact .bind isTyped_moves fun _ => .pure _
  · exact .pure _

theorem wordStatement_reads (hg : g.Reads t) (allowsDeclaration : Bool) (word : String) :
    t.Reads pre (wordStatement g allowsDeclaration word) := by
  have hdeclared : ∀ (first : Nat) {p : Parser Stmt}, t.Reads pre p →
      t.Reads pre (do
        if !allowsDeclaration then recover first
        p) := fun _ _ hp => .ite (fun _ => .step (recover_moves _) fun _ => hp) fun _ => hp
  have htyped : ∀ {p : Parser Stmt}, t.Reads pre p → t.Reads pre (do
      if ← startsTypedDeclaration then
        advance
        p
      else expressionStatement g) := fun hp =>
    .step startsTypedDeclaration_moves fun _ => .ite (fun _ => .step advance_moves fun _ => hp) fun _ =>
      expressionStatement_reads hg
  unfold wordStatement
  refine .step start_moves fun first => ?_
  split
  · exact importStatement_reads hg
  · exact importStatement_reads hg
  · exact jumpStatement_reads _
  · exact jumpStatement_reads _
  · exact .step advance_moves fun _ => .step semicolon_moves fun _ => emptyFrom_reads _ _
  · exact doStatement_reads hg
  · exact forStatement_reads hg
  · exact hdeclared _ (functionDeclaration_reads hg)
  · exact hdeclared _ (classDeclaration_reads hg)
  · exact ifStatement_reads hg
  · exact returnStatement_reads hg
  · exact switchStatement_reads hg
  · exact throwStatement_reads hg
  · exact strayClauses_reads hg
  · exact strayClauses_reads hg
  · exact tryStatement_reads hg
  · exact withStatement_reads hg
  · exact whileStatement_reads hg
  · exact varStatement_reads hg _
  · refine .step isTyped_moves fun _ => .step peek_moves fun _ => .ite (fun _ => constEnum_reads hg _) fun _ => ?_
    exact .ite (fun _ => varStatement_reads hg _) fun _ => expressionStatement_reads hg
  · refine .step atLetDeclaration_moves fun _ => .ite (fun _ => varStatement_reads hg _) fun _ => ?_
    exact expressionStatement_reads hg
  · exact htyped (interfaceRest_reads hg _)
  · exact htyped (aliasRest_reads hg _)
  · exact htyped (enumRest_reads hg _)
  · refine .step atAsyncFunction_moves fun _ => .ite (fun _ => functionDeclaration_reads hg) fun _ => ?_
    exact expressionStatement_reads hg

theorem anyStatement_reads (hg : g.Reads t) (allowsDeclaration : Bool) :
    t.Reads pre (anyStatement g allowsDeclaration) := by
  unfold anyStatement
  refine .step start_moves fun _ => .step lexeme_moves fun _ => ?_
  split
  · exact wordStatement_reads hg _ _
  · refine .bind (blockBody_reads hg) fun _ => .step (spanFrom_moves _) fun _ => .pure fun h => ?_
    exact all_block.2 h.1
  · exact .step advance_moves fun _ => emptyFrom_reads _ _
  · exact expressionStatement_reads hg

end Parser

/-! ## Levels -/

namespace Grammar

variable {t : Stretch}

theorem bottom_reads : bottom.Reads t where
  unary := Parser.unexpected_reads
  leftHand := Parser.unexpected_reads
  assignment := Parser.unexpected_reads
  expression := Parser.unexpected_reads
  binding := Parser.unexpected_reads
  statement := Parser.unexpected_reads
  substatement := Parser.unexpected_reads
  typing := Parser.unexpected_reads

theorem Reads.above {g : Grammar} (hg : g.Reads t) : g.above.Reads t where
  unary := Parser.unaryExpr_reads hg
  leftHand := Parser.leftHandSide_reads hg
  assignment := Parser.assignmentExpr_reads hg
  expression := Parser.sequenceExpr_reads hg
  binding := Parser.bindingTarget_reads hg
  statement := Parser.anyStatement_reads hg true
  substatement := Parser.anyStatement_reads hg false
  typing := Parser.anyType_reads hg

/-- The rules of each level read their stretch. -/
theorem level_reads (n : Nat) : (level n).Reads t := by
  induction n with
  | zero => exact bottom_reads
  | succ n ih => exact ih.above

end Grammar

end TemplateSyntax.Script
