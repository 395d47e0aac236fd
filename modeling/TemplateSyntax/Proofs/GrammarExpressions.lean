import TemplateSyntax.Proofs.GrammarFunctions
import TemplateSyntax.Script.Parser.Expression

/-! # Expressions read their stretch

What the rules for expressions give has words of the text as its identifiers.  Regular expressions and
the parts of templates are read at a place of their own, which is behind the last token. -/

namespace TemplateSyntax.Script
namespace Parser

open Stretch
open Text (From)

variable {t : Stretch} {pre : Prop} {g : Grammar} {cs : List Char} {s : ParseState}

/-! ## Literals -/

theorem simpleLiteral_reads : t.Reads pre simpleLiteral := by
  unfold simpleLiteral
  refine .step token_moves fun _ => .step advance_moves fun _ => .pure fun _ => ?_
  split <;> simp

/-- A regular expression stands behind the slash that the look-ahead token starts with. -/
theorem regexLiteral_reads {p : String} (hs : s.At t.text) (hp : s.token.lexeme = .punct p)
    (hslash : p.toList.head? = some '/') : t.ReadsFrom pre s regexLiteral := by
  unfold regexLiteral
  refine .step (Moves.get s hs) fun s₁ s₂ heq _ _ => ?_
  obtain ⟨rfl, rfl⟩ := EStateM.Result.ok.inj heq
  extract_lets first body word flags last rest
  have hbody := Lexeme.regexEnd_leaves (first + 1) false (s.here.drop 1)
  have hstop : s.lastStop ≤ body.stop :=
    Nat.le_trans hs.le_start (Nat.le_trans (Nat.le_add_right ..) hbody.le)
  have hfrom := hbody.place (hs.behindFirst hp hslash rfl)
  refine .step (resume_leads hfrom hstop) fun _ s₁ hrun hs₁ _ => ?_
  have hlast : ∀ (u : Unit) {s' : ParseState}, s'.At t.text → s'.lastStop = body.stop →
      t.ReadsFrom pre s' (last u) := fun _ s' hs' heq => by
    have hword := Lexeme.readWord_leaves body.rest body.stop ""
    refine .step (resume_leads (hword.place hfrom) (heq ▸ hword.le)) fun _ s₂ _ hs₂ _ => ?_
    exact (Reads.pure fun _ => all_literal).run s₂ hs₂
  have hrest : ∀ u, t.ReadsFrom pre s₁ (rest u) := fun _ => by
    dsimp -zeta only [rest]
    split
    · split
      · refine .step (recover_moves _ s₁ hs₁) fun u s₂ hrec hs₂ _ => ?_
        exact hlast u hs₂ ((recover_ok hrec).trans (resume_ok hrun))
      · exact hlast () hs₁ (resume_ok hrun)
    · exact (Reads.pure fun _ => all_literal).run s₁ hs₁
  split
  · exact .step (Moves.throw _ s₁ hs₁) fun _ _ heq _ _ => nomatch heq
  · exact hrest ()

/-- The parts of a template stand behind each other, from an index that is not before the last
token. -/
theorem templateParts_reads (hg : g.Reads t) (isTagged : Bool) (first fuel : Nat) {rest : List Char}
    {index : Nat} (hfrom : From t.text index rest) (hle : s.lastStop ≤ index) (hs : s.At t.text) :
    t.ReadsFrom pre s (templateParts g isTagged first fuel rest index) := by
  induction fuel generalizing s rest index pre with
  | zero => exact (Reads.throw _).run s hs
  | succ fuel ih =>
    have hend := Lexeme.templateEnd_leaves index rest
    unfold templateParts
    extract_lets parts
    have hparts : ∀ u, t.ReadsFrom pre s (parts u) := fun _ => by
      dsimp -zeta only [parts]
      split
      · have hall : From t.text index (rest ++ []) := by rwa [List.append_nil]
        refine .step (resume_leads hall.append (Nat.le_trans hle (Nat.le_add_right ..)))
          fun _ s' _ hs' _ => ?_
        exact (Reads.throw _).run s' hs'
      · next rest' stop hx =>
        rw [hx] at hend
        refine .step (resume_leads (hend.place hfrom) (Nat.le_trans hle hend.le)) fun _ s' _ hs' _ => ?_
        exact (Reads.pure fun _ => all_nil).run s' hs'
      · next rest' stop hx =>
        rw [hx] at hend
        refine .step (resume_leads (hend.place hfrom) (Nat.le_trans hle hend.le)) fun _ s' _ hs' _ => ?_
        refine .bind ((inMode_reads hg.expression).run s' hs') fun e s₁ _ hs₁ _ => ?_
        refine .step (isPunct_moves _ s₁ hs₁) fun _ s₂ _ hs₂ _ => ?_
        extract_lets more
        have hmore : ∀ u, t.Reads (t.All e ∧ pre) (more u) := fun _ => by
          refine ⟨fun s₃ hs₃ => .step (Moves.get s₃ hs₃) fun s₄ s₅ heq _ _ => ?_⟩
          obtain ⟨rfl, rfl⟩ := EStateM.Result.ok.inj heq
          refine .bind (ih hs₃.rest hs₃.le_stop hs₃) fun _ s₆ _ hs₆ _ => ?_
          exact (Reads.pure fun h => by simp [h]).run s₆ hs₆
        exact (Reads.ite (fun _ => .bind unexpected_reads fun u => (hmore u).weaken And.right)
          fun _ => hmore ()).run s₂ hs₂
    split
    · split
      · exact .step (Moves.throw _ s hs) fun _ _ heq _ _ => nomatch heq
      · exact hparts ()
    · exact hparts ()

theorem templateExprs_reads (hg : g.Reads t) (isTagged : Bool) :
    t.Reads pre (templateExprs g isTagged) := by
  unfold templateExprs
  refine ⟨fun s hs => .step (Moves.get s hs) fun s₁ s₂ heq _ _ => ?_⟩
  obtain ⟨rfl, rfl⟩ := EStateM.Result.ok.inj heq
  exact templateParts_reads hg _ _ _ hs.rest hs.le_stop hs

theorem templateLiteral_reads (hg : g.Reads t) : t.Reads pre (templateLiteral g) := by
  unfold templateLiteral
  refine .step start_moves fun _ => .bind (templateExprs_reads hg _) fun _ => ?_
  exact .step (spanFrom_moves _) fun _ => .pure fun h => by simp [h]

theorem argument_reads (hg : g.Reads t) : t.Reads pre (argument g) := by
  unfold argument
  refine .step start_moves fun _ => .step (eat_moves _) fun _ => .ite (fun _ => ?_) fun _ => ?_
  · exact .bind hg.assignment fun _ => .pure fun h => by simp [h]
  · exact .bind hg.assignment fun _ => .pure fun h => by simp [h]

theorem arrayElements_reads (hg : g.Reads t) : t.Reads pre (arrayElements g) := by
  unfold arrayElements
  refine .bind (many_reads ?_) fun _ => .step (expect_moves _) fun _ => .pure fun h => h.1
  refine .step (isPunct_moves _) fun _ => .ite (fun _ => .pure fun _ => all_none) fun _ => ?_
  refine .step (eat_moves _) fun _ => .ite (fun _ => .pure fun _ => by simp) fun _ => ?_
  refine .bind (argument_reads hg) fun _ => .step (isPunct_moves _) fun _ => .ite (fun _ => ?_) fun _ => ?_
  · exact .step (expect_moves _) fun _ => .pure fun h => by simp [h]
  · exact .pure fun h => by simp [h]

theorem arrayLiteral_reads (hg : g.Reads t) : t.Reads pre (arrayLiteral g) := by
  unfold arrayLiteral
  refine .step start_moves fun _ => .step (expect_moves _) fun _ => ?_
  refine .bind (inMode_reads (arrayElements_reads hg)) fun _ => .step (spanFrom_moves _) fun _ => ?_
  exact .pure fun h => by simp [h]

/-- A method behind what is in front of its key. -/
theorem methodProperty_reads (hg : g.Reads t) (first : Nat) (f : Mode → Mode) :
    t.Reads pre (do
      let (key, _) ← propertyKey g
      let f ← functionRest g f
      return Property.method (← spanFrom first) key f) :=
  .bind (propertyKey_reads hg) fun _ => .bind (functionRest_reads hg f) fun _ =>
    .step (spanFrom_moves _) fun _ => .pure fun h => by simp [h, all_fst h.2.1]

theorem property_reads (hg : g.Reads t) : t.Reads pre (property g) := by
  unfold property
  refine .step start_moves fun _ => .step (eat_moves _) fun _ => .ite (fun _ => ?_) fun _ => ?_
  · exact .bind hg.assignment fun _ => .step (spanFrom_moves _) fun _ => .pure fun h => by simp [h]
  refine .step (eat_moves _) fun _ => .ite (fun _ => methodProperty_reads hg _ _) fun _ => ?_
  refine .step (isWord_moves _) fun _ => .step peek_moves fun _ => .step peek_moves fun _ => ?_
  refine .ite (fun _ => .step advance_moves fun _ => .step (eat_moves _) fun _ => ?_) fun _ => ?_
  · exact methodProperty_reads hg _ _
  refine .step (isWord_moves _) fun _ => .step peek_moves fun _ => .ite (fun _ => ?_) fun _ => ?_
  · refine .step advance_moves fun _ => .bind (propertyKey_reads hg) fun _ => ?_
    refine .bind (getterRest_reads hg) fun _ => .step (spanFrom_moves _) fun _ => .pure fun h => ?_
    exact all_getter.2 ⟨all_fst h.2.1, all_pair.1 h.1⟩
  refine .step (isWord_moves _) fun _ => .step peek_moves fun _ => .ite (fun _ => ?_) fun _ => ?_
  · refine .step advance_moves fun _ => .bind (propertyKey_reads hg) fun _ => ?_
    refine .bind (setterRest_reads hg) fun _ => .step (spanFrom_moves _) fun _ => .pure fun h => ?_
    exact all_setter.2 ⟨all_fst h.2.1, all_pair.1 h.1⟩
  refine .bind (propertyKey_reads hg) fun x => .step (eat_moves _) fun _ => .ite (fun _ => ?_) fun _ => ?_
  · exact .bind hg.assignment fun _ => .pure fun h => by simp [h, all_fst h.2.1]
  refine .step (isPunct_moves _) fun _ => .step isTyped_moves fun _ => .step (isPunct_moves _) fun _ => ?_
  refine .ite (fun _ => .bind (functionRest_reads hg _) fun _ => ?_) fun _ => ?_
  · exact .step (spanFrom_moves _) fun _ => .pure fun h => by simp [h, all_fst h.2.1]
  split
  · exact unexpected_reads
  · next id hid =>
    have hall : t.All x ∧ pre → t.All id := fun h => by simpa [hid] using all_snd h.1
    refine .step (eat_moves _) fun _ => .ite (fun _ => ?_) fun _ => ?_
    · exact .bind hg.assignment fun _ => .pure fun h => by simp [h, hall h.2]
    refine .step (isPunctOf_moves _) fun _ => ?_
    extract_lets last rest
    have hrest : ∀ u, t.Reads (t.All x ∧ pre) (rest u) := fun _ => by
      refine .step mode_moves fun _ => .ite (fun _ => .step (recover_moves _) fun _ => ?_) fun _ => ?_ <;>
        exact .pure fun h => all_shorthand.2 (hall h)
    exact .ite (fun _ => .bind unexpected_reads fun u => (hrest u).weaken And.right) fun _ => hrest ()

theorem objectLiteral_reads (hg : g.Reads t) : t.Reads pre (objectLiteral g) := by
  unfold objectLiteral
  refine .step start_moves fun _ => .step (expect_moves _) fun _ => ?_
  refine .bind (inMode_reads (commaList_reads (property_reads hg))) fun _ => ?_
  exact .step (spanFrom_moves _) fun _ => .pure fun h => by simp [h]

/-! ## Arrow functions and parentheses -/

theorem arrowBody_reads (hg : g.Reads t) (isAsync : Bool) : t.Reads pre (arrowBody g isAsync) := by
  unfold arrowBody
  refine .step start_moves fun _ => .step (isPunct_moves _) fun _ => .ite (fun _ => ?_) fun _ => ?_
  · refine .bind (functionBody_reads hg _) fun _ => .step (spanFrom_moves _) fun _ => ?_
    exact .pure fun h => by simp [h]
  · exact .bind (inMode_reads hg.assignment) fun _ => .pure fun h => by simp [h]

theorem arrowRest_reads (hg : g.Reads t) (first : Nat) (isAsync : Bool) {params : List Pat}
    (hparams : pre → t.All params) : t.Reads pre (arrowRest g first isAsync params) := by
  unfold arrowRest
  refine .step afterBreak_moves fun _ => ?_
  extract_lets rest
  have hrest : ∀ u, t.Reads pre (rest u) := fun _ => by
    refine .step (expect_moves _) fun _ => .bind (arrowBody_reads hg _) fun _ => ?_
    exact .step (spanFrom_moves _) fun _ => .pure fun h => by simp [h, hparams h.2]
  exact .ite (fun _ => .bind unexpected_reads fun u => (hrest u).weaken And.right) fun _ => hrest ()

theorem typedArrow_reads (hg : g.Reads t) (first : Nat) (isAsync : Bool) :
    t.Reads pre (typedArrow g first isAsync) := by
  unfold typedArrow
  refine .bind (typeParameters?_reads hg) fun _ => .bind (inMode_reads ?_) fun params => ?_
  · exact .step (expect_moves _) fun _ => .bind (parameters_reads hg) fun _ => .pure fun h => all_fst h.1
  refine .bind (resultType?_reads hg) fun _ => .bind (arrowRest_reads hg _ _ fun h => h.2.1) fun e => ?_
  refine .step mode_moves fun _ => .step (isPunct_moves _) fun _ => .ite (fun _ => ?_) fun _ => ?_
  · exact .bind unexpected_reads fun _ => .pure fun h => h.2.1
  · exact .pure fun h => h.1

theorem parenthesizedItems_reads (hg : g.Reads t) : t.Reads pre (parenthesizedItems g) := by
  unfold parenthesizedItems
  refine .bind (many_reads ?_) fun items => .step (expect_moves _) fun _ => .pure fun h => ?_
  · refine .step (isPunct_moves _) fun _ => .ite (fun _ => .pure fun _ => all_none) fun _ => ?_
    refine .bind (argument_reads hg) fun a => .step (isPunct_moves _) fun _ => .ite (fun _ => ?_) fun _ => ?_
    · exact .pure fun h => by simp [h]
    · refine .step start_moves fun comma => .step (expect_moves _) fun _ => .pure fun h => ?_
      exact all_some.2 (all_pair.2 ⟨h.1, fun _ _ => trivial⟩)
  · exact all_pair.2 ⟨all_map_fst h.1, fun _ _ => trivial⟩

theorem itemsToExprs_reads {items : List Arg} (h : pre → t.All items) :
    t.Reads pre (itemsToExprs items) := by
  unfold itemsToExprs
  induction items generalizing pre with
  | nil => exact .pure fun _ => all_nil
  | cons a items ih =>
    rw [List.mapM_cons]
    have ha : pre → t.All a := fun hpre => (all_cons.1 (h hpre)).1
    have hitems : ∀ {e : Expr}, t.All e ∧ pre → t.All items := fun hpre => (all_cons.1 (h hpre.2)).2
    refine .bind ?_ fun e => .bind (ih hitems) fun _ => .pure fun h => by simp [h]
    split
    · exact .pure fun hpre => all_item.1 (ha hpre)
    · exact .throw _
    · exact unexpected_reads

theorem checkObjects_moves (es : List Expr) : Moves cs (es.forM checkObject) := by
  induction es with
  | nil => exact .pure _
  | cons e es ih => exact .bind (checkObject_moves e) fun _ => ih

theorem mayStartArrow_moves (index : Nat) : Moves cs (mayStartArrow index) :=
  fun s hs => ⟨hs, .refl s⟩

theorem itemsToParameters_reads {items : List Arg} (h : pre → t.All items) :
    t.Reads pre (itemsToParameters items) := toElements_reads true h

theorem parenthesized_reads (hg : g.Reads t) : t.Reads pre (parenthesized g) := by
  unfold parenthesized
  refine .step start_moves fun first => .step (mayStartArrow_moves _) fun _ => .step isTyped_moves fun _ => ?_
  extract_lets rest
  have hrest : ∀ u, t.Reads pre (rest u) := fun _ => by
    refine .step (expect_moves _) fun _ => .bind (inMode_reads (parenthesizedItems_reads hg)) fun x => ?_
    obtain ⟨items, comma⟩ := x
    refine .step (isPunct_moves _) fun _ => .ite (fun _ => .step afterBreak_moves fun _ => ?_) fun _ => ?_
    · extract_lets arrow
      have harrow : ∀ u, t.Reads (t.All (items, comma) ∧ pre) (arrow u) := fun _ =>
        .bind (itemsToParameters_reads fun h => all_fst h.1) fun _ =>
          arrowRest_reads hg _ _ fun h => h.1
      exact .ite (fun _ => .bind unexpected_reads fun u => (harrow u).weaken And.right) fun _ =>
        harrow ()
    refine .step (spanFrom_moves _) fun span => .bind (itemsToExprs_reads fun h => all_fst h.1) fun exprs => ?_
    refine .step (checkObjects_moves _) fun _ => ?_
    extract_lets paren
    have hparen : ∀ u, t.Reads (t.All exprs ∧ t.All (items, comma) ∧ pre) (paren u) := fun _ => by
      dsimp -zeta only [paren]
      split
      · exact .throw _
      · exact .pure fun h => by simpa using h.1
      · exact .pure fun h => by simpa using h.1
    split
    · exact .step (recover_moves _) hparen
    · exact hparen ()
  refine .ite (fun _ => .bind (attempt_reads (typedArrow_reads hg _ _)) fun x => ?_) fun _ => hrest ()
  split
  · exact .pure fun h => all_some.1 h.1
  · exact (hrest ()).weaken And.right

theorem asyncStart_reads (hg : g.Reads t) : t.Reads pre (asyncStart g) := by
  unfold asyncStart
  refine .step start_moves fun first => .step (mayStartArrow_moves _) fun _ => .step peek_moves fun _ => ?_
  refine .ite (fun _ => .step advance_moves fun _ => .step advance_moves fun _ => ?_) fun _ => ?_
  · refine .bind (functionTail_reads hg _ _) fun _ => .step (spanFrom_moves _) fun _ => ?_
    exact .pure fun h => all_fn.2 (all_snd h.1)
  refine .bind name_reads fun id => .step afterBreak_moves fun _ => ?_
  have hid : ∀ {pre : Prop}, t.Reads (t.All id ∧ pre) (pure (Expr.ident id)) :=
    .pure fun h => all_ident.2 h.1
  have harrow : ∀ {pre : Prop}, t.Reads (t.All id ∧ pre)
      (arrowRest g first false [.ident id id.span]) :=
    arrowRest_reads hg _ _ fun h => by simp [h]
  refine .ite (fun _ => .step (isPunct_moves _) fun _ => ?_) fun _ => ?_
  · exact .ite (fun _ => harrow) fun _ => hid
  refine .step (isPunct_moves _) fun _ => .ite (fun _ => harrow) fun _ => ?_
  refine .step nameHere?_moves fun _ => .ite (fun _ => .step peek_moves fun _ => ?_) fun _ => ?_
  · refine .ite (fun _ => .bind name_reads fun _ => ?_) fun _ => hid
    exact arrowRest_reads hg _ _ fun h => by simp [h]
  refine .step isTyped_moves fun _ => .step (isPunct_moves _) fun _ => .step (isPunct_moves _) fun _ => ?_
  extract_lets rest
  have hrest : ∀ u, t.Reads (t.All id ∧ pre) (rest u) := fun _ => by
    refine .step (isPunct_moves _) fun _ => .ite (fun _ => .step advance_moves fun _ => ?_) fun _ => hid
    refine .bind (inMode_reads (parenthesizedItems_reads hg)) fun x => .step (isPunct_moves _) fun _ => ?_
    refine .step afterBreak_moves fun _ => .ite (fun _ => ?_) fun _ => ?_
    · exact .bind (itemsToParameters_reads fun h => all_fst h.1) fun _ =>
        arrowRest_reads hg _ _ fun h => h.1
    · exact .step (spanFrom_moves _) fun _ => .pure fun h => by simp [h, all_fst h.1]
  refine .ite (fun _ => .bind (attempt_reads (typedArrow_reads hg _ _)) fun x => ?_) fun _ => hrest ()
  split
  · exact .pure fun h => all_some.1 h.1
  · exact (hrest ()).weaken And.right

/-! ## Operands -/

theorem callArguments_reads (hg : g.Reads t) : t.Reads pre (callArguments g) := by
  unfold callArguments
  exact .step (expect_moves _) fun _ => inMode_reads (commaList_reads (argument_reads hg))

theorem memberWord_moves : Moves cs memberWord := by
  unfold memberWord
  refine .bind lexeme_moves fun _ => ?_
  split
  · exact advance_moves
  · exact advance_moves
  · exact unexpected_moves

theorem bracketed_reads (hg : g.Reads t) : t.Reads pre (bracketed g) := by
  unfold bracketed
  refine .step (expect_moves _) fun _ => .bind (inMode_reads hg.expression) fun _ => ?_
  exact .step (expect_moves _) fun _ => .pure fun h => h.1

theorem primary_reads (hg : g.Reads t) : t.Reads pre (primary g) := by
  refine ⟨fun s hs => ?_⟩
  unfold primary
  refine .step (token_moves s hs) fun tok s' heq _ _ => ?_
  obtain ⟨rfl, rfl⟩ := EStateM.Result.ok.inj heq
  have hplain : ∀ (kind : ExprKind) (span : Span),
      t.Reads pre (do advance; return Expr.compound kind span []) := fun _ _ =>
    .step advance_moves fun _ => .pure fun _ => by simp
  split
  · exact simpleLiteral_reads.run s hs
  · exact simpleLiteral_reads.run s hs
  · exact simpleLiteral_reads.run s hs
  · exact (templateLiteral_reads hg).run s hs
  · exact (parenthesized_reads hg).run s hs
  · exact (arrayLiteral_reads hg).run s hs
  · exact (objectLiteral_reads hg).run s hs
  · next hx => exact regexLiteral_reads hs hx rfl
  · next hx => exact regexLiteral_reads hs hx rfl
  · refine (Reads.step peek_moves fun _ => .ite (fun _ => ?_) fun _ => unexpected_reads).run s hs
    exact hplain _ _
  · exact (hplain _ _).run s hs
  · exact simpleLiteral_reads.run s hs
  · exact simpleLiteral_reads.run s hs
  · exact simpleLiteral_reads.run s hs
  · refine (Reads.step advance_moves fun _ => .bind (functionTail_reads hg _ _) fun _ => ?_).run s hs
    exact .step (spanFrom_moves _) fun _ => .pure fun h => all_fn.2 (all_snd h.1)
  · refine (Reads.step advance_moves fun _ => .bind (classTail_reads hg _) fun _ => ?_).run s hs
    exact .step (spanFrom_moves _) fun _ => .pure fun h => all_cls.2 (all_snd h.1)
  · exact (asyncStart_reads hg).run s hs
  · refine (Reads.bind name_reads fun id => .step (isPunct_moves _) fun _ => ?_).run s hs
    refine .step (mayStartArrow_moves _) fun _ => .ite (fun _ => ?_) fun _ => ?_
    · exact arrowRest_reads hg _ _ fun h => by simp [h]
    · exact .pure fun h => by simp [h]
  · exact unexpected_reads.run s hs

/-! ## Members and calls -/

theorem followsTypeArguments_moves : Moves cs followsTypeArguments := by
  unfold followsTypeArguments
  refine .bind afterBreak_moves fun _ => .ite (fun _ => .pure _) fun _ => .bind lexeme_moves fun _ => ?_
  split <;> exact .pure _

section

variable {obj : Expr} (hobj : pre → t.All obj)
include hobj

theorem optionalLink_reads (hg : g.Reads t) (first : Nat) :
    t.Reads pre (optionalLink g first obj) := by
  unfold optionalLink
  refine .step (expect_moves _) fun _ => .step lexeme_moves fun _ => ?_
  split
  · refine .bind (callArguments_reads hg) fun _ => .step (spanFrom_moves _) fun _ => .pure fun h => ?_
    simp [hobj h.2, all_exprs h.1]
  · refine .bind (bracketed_reads hg) fun _ => .step (spanFrom_moves _) fun _ => .pure fun h => ?_
    simp [hobj h.2, h.1]
  · refine .step isTyped_moves fun _ => ?_
    extract_lets rest
    have hrest : ∀ u, t.Reads pre (rest u) := fun _ => by
      refine .bind (typeArguments_reads hg) fun _ => .bind (callArguments_reads hg) fun _ => ?_
      refine .step (spanFrom_moves _) fun _ => .pure fun h => ?_
      simp [hobj h.2.2, all_exprs h.1, h.2.1]
    exact .ite (fun _ => .bind unexpected_reads fun u => (hrest u).weaken And.right) fun _ => hrest ()
  · exact .step memberWord_moves fun _ => .step (spanFrom_moves _) fun _ => .pure fun h => by
      simp [hobj h]

theorem callLink_reads (hg : g.Reads t) (first : Nat) {types : List Expr}
    (htypes : pre → t.All types) : t.Reads pre (callLink g first obj types) := by
  unfold callLink
  refine .bind (callArguments_reads hg) fun _ => .step (spanFrom_moves _) fun _ => ?_
  refine .ite (fun _ => .pure fun h => ?_) fun _ => .pure fun h => ?_
  · simp [hobj h.2, htypes h.2, all_exprs h.1]
  · simp [hobj h.2, htypes h.2, h.1]

theorem typedLink_reads (hg : g.Reads t) (first : Nat) (noCall : Bool) :
    t.Reads pre (typedLink g first noCall obj) := by
  unfold typedLink
  refine .bind (typeArguments_reads hg) fun types => .step (isPunct_moves _) fun _ => ?_
  refine .ite (fun _ => callLink_reads (fun h => hobj h.2) hg _ fun h => h.1) fun _ => ?_
  refine .step lexeme_moves fun _ => .ite (fun _ => ?_) fun _ => ?_
  · refine .bind (templateExprs_reads hg _) fun _ => .step (spanFrom_moves _) fun _ => .pure fun h => ?_
    simp [hobj h.2.2, h]
  · refine .step followsTypeArguments_moves fun _ => ?_
    extract_lets rest
    have hrest : ∀ u, t.Reads (t.All types ∧ pre) (rest u) := fun _ =>
      .step (spanFrom_moves _) fun _ => .pure fun h => by simp [hobj h.2, h]
    exact .ite (fun _ => .bind unexpected_reads fun u => (hrest u).weaken And.right) fun _ => hrest ()

theorem link_reads (hg : g.Reads t) (first : Nat) (noCall : Bool) :
    t.Reads pre (link g first noCall obj) := by
  unfold link
  refine .step lexeme_moves fun _ => ?_
  split
  · refine .ite (fun _ => .bind unexpected_reads fun _ => ?_) fun _ => ?_
    · exact .bind (optionalLink_reads (fun h => hobj h.2) hg _) fun _ => .pure fun h => all_some.2 h.1
    · exact .bind (optionalLink_reads hobj hg _) fun _ => .pure fun h => all_some.2 h.1
  · exact .step advance_moves fun _ => .step memberWord_moves fun _ => .step (spanFrom_moves _) fun _ =>
      .pure fun h => by simp [hobj h]
  · exact .bind (bracketed_reads hg) fun _ => .step (spanFrom_moves _) fun _ =>
      .pure fun h => by simp [hobj h.2, h]
  · refine .ite (fun _ => .pure fun _ => all_none) fun _ => ?_
    exact .bind (callLink_reads hobj hg _ fun _ => all_nil) fun _ => .pure fun h => all_some.2 h.1
  · extract_lets rest
    have hrest : ∀ u, t.Reads pre (rest u) := fun _ =>
      .bind (templateExprs_reads hg _) fun _ => .step (spanFrom_moves _) fun _ =>
        .pure fun h => by simp [hobj h.2, h]
    exact .ite (fun _ => .step start_moves fun _ => .step (recover_moves _) hrest) fun _ => hrest ()
  · refine .step isTyped_moves fun _ => .step afterBreak_moves fun _ => .ite (fun _ => ?_) fun _ => ?_
    · exact .step advance_moves fun _ => .step (spanFrom_moves _) fun _ =>
        .pure fun h => by simp [hobj h]
    · exact .pure fun _ => all_none
  · refine .step isTyped_moves fun _ => .ite (fun _ => ?_) fun _ => .pure fun _ => all_none
    exact attempt_reads (typedLink_reads hobj hg _ _)
  · refine .step isTyped_moves fun _ => .ite (fun _ => ?_) fun _ => .pure fun _ => all_none
    exact attempt_reads (typedLink_reads hobj hg _ _)
  · exact .pure fun _ => all_none

theorem linksUpTo_reads (hg : g.Reads t) (first : Nat) (noCall : Bool) (fuel : Nat) :
    t.Reads pre (linksUpTo g first noCall fuel obj) := by
  induction fuel generalizing obj pre with
  | zero => exact .pure hobj
  | succ fuel ih =>
    unfold linksUpTo
    refine .bind (link_reads hobj hg _ _) fun x => ?_
    split
    · exact ih fun h => all_some.1 h.1
    · exact .pure fun h => hobj h.2

theorem links_reads (hg : g.Reads t) (first : Nat) (noCall : Bool) :
    t.Reads pre (links g first noCall obj) := by
  unfold links
  exact .step .get fun _ => linksUpTo_reads hobj hg _ _ _

end

theorem superStart_reads (hg : g.Reads t) : t.Reads pre (superStart g) := by
  unfold superStart
  refine .step token_moves fun _ => .step advance_moves fun _ => .step lexeme_moves fun _ => ?_
  split
  · refine .step mode_moves fun _ => .ite (fun _ => .step (.throw _) fun _ => ?_) fun _ => ?_ <;>
      exact .step advance_moves fun _ => .step memberWord_moves fun _ => .step (spanFrom_moves _) fun _ =>
        .pure fun _ => by simp
  · refine .step mode_moves fun _ => .ite (fun _ => .step (.throw _) fun _ => ?_) fun _ => ?_ <;>
      exact .bind (bracketed_reads hg) fun _ => .step (spanFrom_moves _) fun _ => .pure fun h => by
        simp [h]
  · refine .step mode_moves fun _ => .ite (fun _ => .step (.throw _) fun _ => ?_) fun _ => ?_ <;>
      exact .bind (callArguments_reads hg) fun _ => .step (spanFrom_moves _) fun _ => .pure fun h => by
        simp [h]
  · exact unexpected_reads

theorem importStart_reads (hg : g.Reads t) : t.Reads pre (importStart g) := by
  unfold importStart
  refine .step token_moves fun _ => .step advance_moves fun _ => .step (eat_moves _) fun _ => ?_
  refine .ite (fun _ => .step (expectWord_moves _) fun _ => .step (recover_moves _) fun _ => ?_) fun _ => ?_
  · exact .step (spanFrom_moves _) fun _ => .pure fun _ => by simp
  · exact .bind (callArguments_reads hg) fun _ => .step (spanFrom_moves _) fun _ => .pure fun h => by
      simp [h]

theorem newStart_reads (hg : g.Reads t) (fuel : Nat) : t.Reads pre (newStart g fuel) := by
  induction fuel generalizing pre with
  | zero => exact unexpected_reads
  | succ fuel ih =>
    unfold newStart
    refine .step token_moves fun tok => .step advance_moves fun _ => .step (eat_moves _) fun _ => ?_
    refine .ite (fun _ => .step (expectWord_moves _) fun _ => .step mode_moves fun _ => ?_) fun _ => ?_
    · refine .ite (fun _ => .step (recover_moves _) fun _ => ?_) fun _ => ?_ <;>
        exact .step (spanFrom_moves _) fun _ => .pure fun _ => by simp
    refine .step start_moves fun first => .step lexeme_moves fun _ => ?_
    extract_lets rest
    have hrest : ∀ base, t.Reads (t.All base ∧ pre) (rest base) := fun base => by
      refine .bind (links_reads (fun h => h.1) hg _ _) fun callee => ?_
      refine .step isTyped_moves fun _ => .step atLess_moves fun _ => ?_
      extract_lets plain last
      have hlast : ∀ types, t.Reads (t.All types ∧ t.All callee ∧ t.All base ∧ pre) (last types) :=
          fun types => by
        refine .step (isPunct_moves _) fun _ => .ite (fun _ => ?_) fun _ => ?_
        · refine .bind (callArguments_reads hg) fun _ => .step (spanFrom_moves _) fun _ => ?_
          exact .pure fun h => by simp [h, all_exprs h.1]
        · refine .step (isPunct_moves _) fun _ => .ite (fun _ => .bind unexpected_reads fun _ => ?_)
            fun _ => ?_ <;>
            exact .step (spanFrom_moves _) fun _ => .pure fun h => by simp [h]
      refine .ite (fun _ => .bind (attempt_reads ?_) fun found => ?_) fun _ => ?_
      · refine .bind (typeArguments_reads hg) fun _ => .step (isPunct_moves _) fun _ => ?_
        refine .ite (fun _ => .bind unexpected_reads fun _ => ?_) fun _ => ?_ <;>
          exact .pure fun h => by simp [h]
      · refine .bind (.pure fun h => all_getD h.1 all_nil) fun _ => (hlast _).weaken fun h => ?_
        exact ⟨h.1, h.2.2⟩
      · exact .bind (.pure fun _ => all_nil) fun _ => hlast _
    split
    · exact .bind ih hrest
    · exact .bind (superStart_reads hg) hrest
    · exact .bind (importStart_reads hg) hrest
    · exact .bind (primary_reads hg) hrest

theorem leftHandSide_reads (hg : g.Reads t) : t.Reads pre (leftHandSide g) := by
  unfold leftHandSide
  refine .step start_moves fun first => .step lexeme_moves fun _ => ?_
  extract_lets rest
  have hrest : ∀ base, t.Reads (t.All base ∧ pre) (rest base) := fun base =>
    .ite (fun _ => .pure fun h => h.1) fun _ => links_reads (fun h => h.1) hg _ _
  split
  · exact .step .get fun _ => .bind (newStart_reads hg _) hrest
  · exact .bind (superStart_reads hg) hrest
  · exact .bind (importStart_reads hg) hrest
  · exact .bind (primary_reads hg) hrest

/-! ## Operators -/

theorem prefixOperand_reads (hg : g.Reads t) : t.Reads pre (prefixOperand g) :=
  orElseFrom_reads hg.unary fun _ => .step (recover_moves _) fun _ => .pure fun _ => all_literal

theorem typeAssertion_reads (hg : g.Reads t) : t.Reads pre (typeAssertion g) := by
  unfold typeAssertion
  refine .step start_moves fun _ => .step (succeeds_moves _) fun _ => .step expectLess_moves fun _ => ?_
  extract_lets rest
  have hrest : ∀ types, t.Reads (t.All types ∧ pre) (rest types) := fun types => by
    refine .step expectGreater_moves fun _ => .bind hg.unary fun _ => .step (spanFrom_moves _) fun _ => ?_
    exact .pure fun h => by simp [h]
  refine .ite (fun _ => .step advance_moves fun _ => ?_) fun _ => .bind hg.typing hrest
  exact .bind (.pure fun _ => all_nil) hrest

theorem checkDeleted_moves (e : Expr) : Moves cs (checkDeleted e) := by
  unfold checkDeleted
  extract_lets inner
  split
  · exact .pure _
  · exact .pure _
  · exact .bind isTyped_moves fun _ => .ite (fun _ => recover_moves _) fun _ => .pure _

/-- The word `await`, which may be a name. -/
theorem awaitExpr_reads (hg : g.Reads t) (hs : s.At t.text)
    (hw : s.token.lexeme = .word "await" false) : t.ReadsFrom pre s (awaitExpr g) := by
  unfold awaitExpr
  refine .step (token_moves s hs) fun tok s' heq _ _ => ?_
  obtain ⟨rfl, rfl⟩ := EStateM.Result.ok.inj heq
  refine takeWord_reads hs hw fun _ => .step mode_moves fun _ => ?_
  extract_lets rest
  have hrest : ∀ {pre : Prop} (u : Unit), t.Reads pre (rest u) := fun _ =>
    .bind hg.unary fun _ => .step (spanFrom_moves _) fun _ => .pure fun h => by simp [h]
  refine .ite (fun _ => .step endsStatement_moves fun _ => ?_) fun _ => hrest ()
  refine .step (isPunctOf_moves _) fun _ => .ite (fun _ => ?_) fun _ => ?_
  · exact .pure fun h => all_ident.2 h.1
  · exact .step (recover_moves _) hrest

theorem suffixed_reads (hg : g.Reads t) (first : Nat) : t.Reads pre (unaryExpr.suffixed g first) := by
  unfold unaryExpr.suffixed
  refine .bind (leftHandSide_reads hg) fun _ => .step afterBreak_moves fun _ => ?_
  refine .ite (fun _ => .pure fun h => h.1) fun _ => .step (isPunctOf_moves _) fun _ => ?_
  refine .ite (fun _ => .step (checkTarget_moves _) fun _ => ?_) fun _ => .pure fun h => h.1
  exact .step advance_moves fun _ => .step (spanFrom_moves _) fun _ => .pure fun h => by simp [h]

theorem unaryExpr_reads (hg : g.Reads t) : t.Reads pre (unaryExpr g) := by
  have hupdate : ∀ first : Nat, t.Reads pre (do
      advance
      let e ← g.unary
      checkTarget e
      return Expr.update (← spanFrom first) e) := fun _ =>
    .step advance_moves fun _ => .bind hg.unary fun _ => .step (checkTarget_moves _) fun _ =>
      .step (spanFrom_moves _) fun _ => .pure fun h => by simp [h]
  have hsign : ∀ (first : Nat) (isVoid : Bool), t.Reads pre (do
      advance
      let e ← prefixOperand g
      return Expr.unary (← spanFrom first) isVoid e) := fun _ _ =>
    .step advance_moves fun _ => .bind (prefixOperand_reads hg) fun _ =>
      .step (spanFrom_moves _) fun _ => .pure fun h => by simp [h]
  refine ⟨fun s hs => ?_⟩
  unfold unaryExpr
  refine .step (start_moves s hs) fun first s' heq _ _ => ?_
  obtain ⟨-, rfl⟩ := EStateM.Result.ok.inj heq
  refine .step (lexeme_moves s hs) fun l s' heq _ _ => ?_
  obtain ⟨rfl, rfl⟩ := EStateM.Result.ok.inj heq
  split
  · exact (hupdate _).run s hs
  · exact (hupdate _).run s hs
  · exact (hsign _ _).run s hs
  · exact (hsign _ _).run s hs
  · exact (hsign _ _).run s hs
  · exact (hsign _ _).run s hs
  · exact (hsign _ _).run s hs
  · refine (Reads.step advance_moves fun _ => .bind (prefixOperand_reads hg) fun _ => ?_).run s hs
    exact .step (checkDeleted_moves _) fun _ => .step (spanFrom_moves _) fun _ => .pure fun h => by
      simp [h]
  · exact (hsign _ _).run s hs
  · next hw => exact awaitExpr_reads hg hs hw
  · refine (Reads.step isTyped_moves fun _ => .ite (fun _ => ?_) fun _ => ?_).run s hs
    · exact typeAssertion_reads hg
    · exact suffixed_reads hg _
  · exact (suffixed_reads hg _).run s hs

theorem checkNullish_moves (op : BinaryOp) (e : Expr) : Moves cs (checkNullish op e) := by
  unfold checkNullish
  split
  · exact recover_moves _
  · exact .pure _

theorem atTypeOperator_moves (minRank : Nat) : Moves cs (atTypeOperator minRank) := by
  unfold atTypeOperator
  exact .bind isTyped_moves fun _ => .bind afterBreak_moves fun _ => .bind (isWordOf_moves _) fun _ =>
    .pure _

theorem typeOperation_reads (hg : g.Reads t) {left : Expr} (hleft : pre → t.All left) :
    t.Reads pre (typeOperation g left) := by
  unfold typeOperation
  refine .step (isWord_moves _) fun _ => .step advance_moves fun _ => .step (isWord_moves _) fun _ => ?_
  refine .ite (fun _ => .step advance_moves fun _ => .step (spanFrom_moves _) fun _ => ?_) fun _ => ?_
  · exact .pure fun h => by simp [hleft h]
  · exact .bind hg.typing fun _ => .step (spanFrom_moves _) fun _ => .pure fun h => by
      simp [hleft h.2, h]

theorem binaryTail_reads (hg : g.Reads t) (fuel minRank : Nat) {left : Expr}
    (hleft : pre → t.All left) : t.Reads pre (binaryTail g fuel minRank left) := by
  induction fuel generalizing minRank left pre with
  | zero => exact .pure hleft
  | succ fuel ih =>
    unfold binaryTail
    refine .step (atTypeOperator_moves _) fun _ => .ite (fun _ => ?_) fun _ => ?_
    · exact .bind (typeOperation_reads hg hleft) fun _ => ih _ fun h => h.1
    refine .step lexeme_moves fun op => .step mode_moves fun _ => ?_
    split
    · exact .pure hleft
    · next rank _ =>
      refine .ite (fun _ => .pure hleft) fun _ => .step advance_moves fun _ => ?_
      extract_lets kind rest
      have hrest : ∀ u, t.Reads pre (rest u) := fun _ => by
        refine .bind hg.unary fun operand => .bind (ih _ fun h => h.1) fun right => ?_
        refine .step (checkNullish_moves _ _) fun _ => .step (checkNullish_moves _ _) fun _ => ?_
        exact ih _ fun h => all_binary.2 ⟨hleft h.2.2, h.1⟩
      refine .ite (fun _ => ?_) fun _ => hrest ()
      split
      · exact .bind unexpected_reads fun u => (hrest u).weaken And.right
      · exact .bind unexpected_reads fun u => (hrest u).weaken And.right
      · exact hrest ()

theorem binaryExpr_reads (hg : g.Reads t) : t.Reads pre (binaryExpr g) := by
  unfold binaryExpr
  refine .bind (orElseFrom_reads (unaryExpr_reads hg) fun index => ?_) fun left => ?_
  · refine .step mode_moves fun _ => .step lexeme_moves fun _ => ?_
    split
    · exact .step start_moves fun _ => .step (recover_moves _) fun _ => .pure fun _ => all_literal
    · exact .throw _
  · refine .ite (fun _ => .pure fun h => h.1) fun _ => .step .get fun _ => ?_
    exact binaryTail_reads hg _ _ fun h => h.1

theorem conditional_reads (hg : g.Reads t) : t.Reads pre (conditional g) := by
  unfold conditional
  refine .step start_moves fun _ => .bind (binaryExpr_reads hg) fun test => ?_
  refine .ite (fun _ => .pure fun h => h.1) fun _ => .step (eat_moves _) fun _ => ?_
  refine .ite (fun _ => .bind (inMode_reads hg.assignment) fun _ => ?_) fun _ => .pure fun h => h.1
  refine .step (expect_moves _) fun _ => .bind (inMode_reads hg.assignment) fun _ => ?_
  exact .step (spanFrom_moves _) fun _ => .pure fun h => by simp [h]

theorem yieldExpr_reads (hg : g.Reads t) : t.Reads pre (yieldExpr g) := by
  unfold yieldExpr
  refine .step start_moves fun _ => .step advance_moves fun _ => .step afterBreak_moves fun _ => ?_
  extract_lets rest
  have hrest : ∀ isOver, t.Reads pre (rest isOver) := fun isOver => by
    refine .ite (fun _ => .step (spanFrom_moves _) fun _ => .pure fun _ => by simp) fun _ => ?_
    refine .step (eat_moves _) fun _ => .bind hg.assignment fun _ => .step (spanFrom_moves _) fun _ => ?_
    exact .pure fun h => by simp [h]
  refine .ite (fun _ => .step (.pure _) hrest) fun _ => .step atEnd_moves fun _ => ?_
  refine .ite (fun _ => .step (.pure _) hrest) fun _ => .step lexeme_moves fun _ => ?_
  split <;> exact .step (.pure _) hrest

theorem assignmentExpr_reads (hg : g.Reads t) : t.Reads pre (assignmentExpr g) := by
  have hmark : ∀ first : Nat, Moves t.text
      (modify fun s => { s with arrowStart := some first } : Parser Unit) := fun _ =>
    .modify fun _ => ⟨rfl, rfl, rfl, rfl, rfl⟩
  unfold assignmentExpr
  refine .step start_moves fun first => .step mode_moves fun _ => .step (isWord_moves _) fun _ => ?_
  refine .ite (fun _ => yieldExpr_reads hg) fun _ => .step (hmark _) fun _ => ?_
  refine .step isTyped_moves fun _ => .step (isPunct_moves _) fun _ => ?_
  extract_lets rest
  have hrest : ∀ u, t.Reads pre (rest u) := fun _ => by
    refine .bind (conditional_reads hg) fun left => .ite (fun _ => .pure fun h => h.1) fun _ => ?_
    refine .step (isPunct_moves _) fun _ => .ite (fun _ => ?_) fun _ => ?_
    · refine .bind (toTarget_reads fun h => h.1) fun _ => .step advance_moves fun _ => ?_
      refine .bind hg.assignment fun _ => .step (spanFrom_moves _) fun _ => .pure fun h => by simp [h]
    refine .step (isPunctOf_moves _) fun _ => .ite (fun _ => ?_) fun _ => .pure fun h => h.1
    refine .step (isPunct_moves _) fun _ => .bind (toCompoundTarget_reads fun h => h.1) fun _ => ?_
    refine .step advance_moves fun _ => .bind hg.assignment fun _ => .step (spanFrom_moves _) fun _ => ?_
    exact .pure fun h => by simp [h]
  refine .ite (fun _ => .bind (attempt_reads (typedArrow_reads hg _ _)) fun x => ?_) fun _ => hrest ()
  split
  · exact .pure fun h => all_some.1 h.1
  · exact (hrest ()).weaken And.right

theorem sequenceExpr_reads (hg : g.Reads t) : t.Reads pre (sequenceExpr g) := by
  unfold sequenceExpr
  refine .step start_moves fun _ => .bind hg.assignment fun _ => .step (isPunct_moves _) fun _ => ?_
  refine .ite (fun _ => .bind (many_reads ?_) fun _ => ?_) fun _ => .pure fun h => h.1
  · refine .step (eat_moves _) fun _ => .ite (fun _ => ?_) fun _ => .pure fun _ => all_none
    exact .bind hg.assignment fun _ => .pure fun h => by simp [h]
  · exact .step (spanFrom_moves _) fun _ => .pure fun h => by simp [h]

end Parser
end TemplateSyntax.Script
