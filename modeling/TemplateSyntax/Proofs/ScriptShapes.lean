import TemplateSyntax.Proofs.ScriptReads
import TemplateSyntax.Script.Parser

/-! # What a result tells about its reading

An expression that is a name, a call, a function or an operation with one operand in front was read as
an operand: no binary operator, condition or assignment was taken.  So where such an expression comes
out, the rules for operators all handed it on from the rule for operands, and took nothing. -/

namespace TemplateSyntax.Script

/-- The expressions that only the rule for operands makes. -/
def Expr.isTight : Expr → Bool
  | .ident _ | .call .. | .fn .. | .unary .. => true
  | _ => false

namespace Parser

variable {α β : Type} {g : Grammar} {s s' : ParseState} {e : Expr}

/-! ## Successful runs -/

theorem pure_ok {a b : α} (h : (pure a : Parser α) s = .ok b s') : a = b ∧ s = s' :=
  EStateM.Result.ok.inj h

theorem ite_run {c : Prop} [Decidable c] {p q : Parser α} :
    (if c then p else q) s = if c then p s else q s := by
  split <;> rfl

theorem inMode_ok {f : Mode → Mode} {p : Parser α} {a : α} (h : inMode f p s = .ok a s') :
    ∃ s₁, p { s with mode := f s.mode } = .ok a s₁ ∧ s' = { s₁ with mode := s.mode } := by
  obtain ⟨m, s₁, hm, h⟩ := bind_eq_ok.1 h
  obtain ⟨rfl, rfl⟩ := EStateM.Result.ok.inj hm
  obtain ⟨u, s₂, hset, h⟩ := bind_eq_ok.1 h
  obtain ⟨-, rfl⟩ := EStateM.Result.ok.inj hset
  obtain ⟨b, s₃, hp, h⟩ := bind_eq_ok.1 h
  obtain ⟨u', s₄, hset', h⟩ := bind_eq_ok.1 h
  obtain ⟨-, rfl⟩ := EStateM.Result.ok.inj hset'
  obtain ⟨rfl, rfl⟩ := pure_ok h
  exact ⟨s₃, hp, rfl⟩

theorem orElseFrom_ok {p : Parser α} {handle : Nat → Parser α} {a : α}
    (h : orElseFrom p handle s = .ok a s') :
    p s = .ok a s' ∨ ∃ index s₁, handle index s₁ = .ok a s' := by
  unfold orElseFrom at h
  split at h
  · next b s₁ hp =>
    obtain ⟨rfl, rfl⟩ := EStateM.Result.ok.inj h
    exact .inl hp
  · exact .inr ⟨_, _, h⟩

/-- What follows a parser goes on from where that ends. -/
theorem bind_run {p : Parser α} {q : α → Parser β} {a : α} (h : p s = .ok a s') :
    (p >>= q) s = q a s' := by
  show EStateM.bind p q s = _
  unfold EStateM.bind
  rw [h]

section

variable (s) {q : α → Parser β} {qb : Bool → Parser β}

/-! A parser that only looks at the state hands it on. -/

theorem token_run {q : ScriptToken → Parser β} : (token >>= q) s = q s.token s := rfl
theorem lexeme_run {q : Lexeme → Parser β} : (lexeme >>= q) s = q s.token.lexeme s := rfl
theorem start_run {q : Nat → Parser β} : (start >>= q) s = q s.token.start s := rfl
theorem spanFrom_run (first : Nat) {q : Span → Parser β} :
    (spanFrom first >>= q) s = q ⟨first, s.lastStop⟩ s := rfl
theorem mode_run {q : Mode → Parser β} : (mode >>= q) s = q s.mode s := rfl
theorem isTyped_run : (isTyped >>= qb) s = qb s.mode.isTyped s := rfl
theorem afterBreak_run : (afterBreak >>= qb) s = qb s.token.afterBreak s := rfl
theorem isPunct_run (text : String) :
    (isPunct text >>= qb) s = qb (s.token.lexeme == .punct text) s := rfl
theorem isWord_run (name : String) :
    (isWord name >>= qb) s = qb (s.token.lexeme == .word name false) s := rfl
theorem atEnd_run : (atEnd >>= qb) s = qb (s.token.lexeme == .eof) s := rfl
theorem modify_run (f : ParseState → ParseState) {q : Unit → Parser β} :
    (modify f >>= q) s = q () (f s) := rfl
theorem get_run {q : ParseState → Parser β} : (get >>= q) s = q s s := rfl

theorem isPunctOf_stays (texts : List String) : ∃ b, isPunctOf texts s = .ok b s := by
  unfold isPunctOf
  rw [lexeme_run]
  cases s.token.lexeme <;> exact ⟨_, rfl⟩

theorem isWordOf_stays (names : List String) : ∃ b, isWordOf names s = .ok b s := by
  unfold isWordOf
  rw [lexeme_run]
  cases s.token.lexeme with
  | word name escaped => cases escaped <;> exact ⟨_, rfl⟩
  | _ => exact ⟨_, rfl⟩

theorem endsStatement_stays : ∃ b, endsStatement s = .ok b s := by
  obtain ⟨b, hb⟩ := isPunctOf_stays s [";", "\x7d"]
  unfold endsStatement
  rw [bind_run hb]
  exact ⟨_, rfl⟩

end

/-- A token that may be there was taken, or nothing was. -/
theorem eat_ok {text : String} {b : Bool} (h : eat text s = .ok b s') :
    b = false ∧ s' = s ∧ s.token.lexeme ≠ .punct text ∨
      b = true ∧ s.token.lexeme = .punct text ∧ advance s = .ok () s' := by
  unfold eat at h
  rw [isPunct_run, ite_run] at h
  split at h
  · next hp =>
    obtain ⟨u, s₂, hu, hpure⟩ := bind_eq_ok.1 h
    obtain ⟨rfl, rfl⟩ := pure_ok hpure
    exact .inr ⟨rfl, eq_of_beq hp, hu⟩
  · next hp =>
    obtain ⟨rfl, rfl⟩ := pure_ok h
    exact .inl ⟨rfl, rfl, fun heq => hp (by rw [heq, beq_self_eq_true])⟩

/-! ## Results of one shape -/

/-- All results of a parser are of one kind. -/
structure Gives (Q : α → Prop) (p : Parser α) : Prop where
  result : ∀ {s s' : ParseState} {a : α}, p s = .ok a s' → Q a

namespace Gives

variable {Q : β → Prop}

theorem pure {b : β} (h : Q b) : Gives Q (pure b) := ⟨fun heq => (pure_ok heq).1 ▸ h⟩

theorem throw (index : Nat) : Gives Q (throw index) := ⟨fun heq => nomatch heq⟩

theorem unexpected : Gives Q unexpected := ⟨fun heq => absurd heq unexpected_ne_ok⟩

theorem bind {p : Parser α} {q : α → Parser β} (h : ∀ a, Gives Q (q a)) : Gives Q (p >>= q) := by
  refine ⟨fun heq => ?_⟩
  obtain ⟨a, s₁, -, hq⟩ := bind_eq_ok.1 heq
  exact (h a).result hq

theorem ite {c : Prop} [Decidable c] {p q : Parser β} (hp : Gives Q p) (hq : Gives Q q) :
    Gives Q (if c then p else q) := by
  split
  · exact hp
  · exact hq

theorem some {p : Parser β} (h : Gives Q p) :
    Gives (fun x => ∃ b, x = some b ∧ Q b) (do return some (← p)) := by
  refine ⟨fun heq => ?_⟩
  obtain ⟨b, s₁, hb, hpure⟩ := bind_eq_ok.1 heq
  exact ⟨b, (pure_ok hpure).1.symm, h.result hb⟩

end Gives

/-- The end of a statement is a semicolon, or takes nothing. -/
theorem semicolon_ok {u : Unit} (h : semicolon s = .ok u s') :
    s' = s ∨ s.token.lexeme = .punct ";" ∧ advance s = .ok () s' := by
  obtain ⟨b, s₁, hb, hrest⟩ := bind_eq_ok.1 h
  rcases eat_ok hb with ⟨rfl, rfl, -⟩ | ⟨rfl, hp, hadv⟩
  · obtain ⟨b, hends⟩ := endsStatement_stays s₁
    rw [ite_run, if_neg Bool.false_ne_true, bind_run hends, ite_run] at hrest
    split at hrest
    · exact .inl (pure_ok hrest).2.symm
    · exact absurd hrest unexpected_ne_ok
  · obtain ⟨-, rfl⟩ := pure_ok hrest
    exact .inr ⟨hp, hadv⟩

/-! ## Operators -/

theorem typeOperation_gives (left : Expr) :
    Gives (fun e => e.isTight = false) (typeOperation g left) := by
  unfold typeOperation
  refine .bind fun _ => .bind fun _ => .bind fun _ => .ite ?_ ?_
  · exact .bind fun _ => .bind fun _ => .pure rfl
  · exact .bind fun _ => .bind fun _ => .pure rfl

theorem atTypeOperator_stays (s : ParseState) (minRank : Nat) :
    ∃ b, atTypeOperator minRank s = .ok b s := by
  obtain ⟨b, hb⟩ := isWordOf_stays s ["as", "satisfies"]
  unfold atTypeOperator
  rw [isTyped_run, afterBreak_run, bind_run hb]
  exact ⟨_, rfl⟩

/-- Binary operations hand on their left operand, or make an expression that is not tight. -/
theorem binaryTail_ok {fuel minRank : Nat} {left : Expr}
    (h : binaryTail g fuel minRank left s = .ok e s') : e = left ∧ s' = s ∨ e.isTight = false := by
  induction fuel generalizing minRank left s s' e with
  | zero =>
    obtain ⟨rfl, rfl⟩ := pure_ok h
    exact .inl ⟨rfl, rfl⟩
  | succ fuel ih =>
    have hloose : ∀ {minRank : Nat} {left' : Expr}, left'.isTight = false →
        Gives (fun e => e.isTight = false) (binaryTail g fuel minRank left') := by
      intro minRank left' hleft
      refine ⟨fun hrun => ?_⟩
      rcases ih hrun with ⟨rfl, -⟩ | he
      · exact hleft
      · exact he
    obtain ⟨b, hb⟩ := atTypeOperator_stays s minRank
    unfold binaryTail at h
    rw [bind_run hb, ite_run] at h
    split at h
    · obtain ⟨left', s₂, hleft, hrest⟩ := bind_eq_ok.1 h
      exact .inr ((hloose ((typeOperation_gives left).result hleft)).result hrest)
    rw [lexeme_run, mode_run] at h
    cases hrank : rank? s.mode.allowsIn s.token.lexeme with
    | none =>
      rw [hrank] at h
      obtain ⟨rfl, rfl⟩ := pure_ok h
      exact .inl ⟨rfl, rfl⟩
    | some rank =>
      rw [hrank] at h
      dsimp -zeta only at h
      rw [ite_run] at h
      split at h
      · obtain ⟨rfl, rfl⟩ := pure_ok h
        exact .inl ⟨rfl, rfl⟩
      refine .inr (Gives.result (Q := fun e => e.isTight = false) (.bind fun _ => ?_) h)
      extract_lets kind rest
      have hrest : ∀ u, Gives (fun e => e.isTight = false) (rest u) := fun _ =>
        .bind fun _ => .bind fun _ => .bind fun _ => .bind fun _ => hloose rfl
      refine .ite ?_ (hrest ())
      split
      · exact .bind hrest
      · exact .bind hrest
      · exact hrest ()

/-- A tight expression was read as an operand. -/
theorem binaryExpr_ok (he : e.isTight = true) (h : binaryExpr g s = .ok e s') :
    unaryExpr g s = .ok e s' := by
  obtain ⟨left, s₁, hleft, hrest⟩ := bind_eq_ok.1 h
  have hkept : e = left ∧ s' = s₁ := by
    rw [ite_run] at hrest
    split at hrest
    · obtain ⟨rfl, rfl⟩ := pure_ok hrest
      exact ⟨rfl, rfl⟩
    · rw [get_run] at hrest
      rcases binaryTail_ok hrest with hkept | hloose
      · exact hkept
      · exact absurd (he.symm.trans hloose) (by decide)
  obtain ⟨rfl, rfl⟩ := hkept
  rcases orElseFrom_ok hleft with hrun | ⟨index, s₂, hrun⟩
  · exact hrun
  · have hloose := Gives.result (Q := fun e => e.isTight = false)
      (.bind fun _ => .bind fun _ => by
        split
        · exact .bind fun _ => .bind fun _ => .pure rfl
        · exact .throw _) hrun
    exact absurd (he.symm.trans hloose) (by decide)

theorem conditional_ok (he : e.isTight = true) (h : conditional g s = .ok e s') :
    unaryExpr g s = .ok e s' := by
  unfold conditional at h
  rw [start_run] at h
  obtain ⟨test, s₁, htest, hrest⟩ := bind_eq_ok.1 h
  have hkept : e = test ∧ s' = s₁ := by
    rw [ite_run] at hrest
    split at hrest
    · obtain ⟨rfl, rfl⟩ := pure_ok hrest
      exact ⟨rfl, rfl⟩
    obtain ⟨b, s₂, hb, hlast⟩ := bind_eq_ok.1 hrest
    rcases eat_ok hb with ⟨rfl, rfl, -⟩ | ⟨rfl, -, -⟩
    · obtain ⟨rfl, rfl⟩ := pure_ok hlast
      exact ⟨rfl, rfl⟩
    · have hloose := Gives.result (Q := fun e => e.isTight = false)
        (.bind fun _ => .bind fun _ => .bind fun _ => .bind fun _ => .pure rfl) hlast
      exact absurd (he.symm.trans hloose) (by decide)
  obtain ⟨rfl, rfl⟩ := hkept
  exact binaryExpr_ok he htest

/-- A tight expression was read as an operand, where an arrow function might start. -/
theorem assignmentExpr_ok (he : e.isTight = true) (hmode : s.mode.inGenerator = false)
    (hless : s.token.lexeme ≠ .punct "<") (h : assignmentExpr g s = .ok e s') :
    unaryExpr g { s with arrowStart := some s.token.start } = .ok e s' := by
  have hplain : ¬ (s.mode.isTyped && s.token.lexeme == .punct "<") = true := by
    rw [Bool.and_eq_true, beq_iff_eq]
    exact fun hand => hless hand.2
  unfold assignmentExpr at h
  rw [start_run, mode_run, isWord_run, ite_run, hmode, Bool.false_and, if_neg Bool.false_ne_true,
    modify_run, isTyped_run, isPunct_run, ite_run, if_neg hplain] at h
  obtain ⟨left, s₁, hleft, hrest⟩ := bind_eq_ok.1 h
  have hkept : e = left ∧ s' = s₁ := by
    rw [ite_run] at hrest
    split at hrest
    · obtain ⟨rfl, rfl⟩ := pure_ok hrest
      exact ⟨rfl, rfl⟩
    rw [isPunct_run, ite_run] at hrest
    split at hrest
    · have hloose := Gives.result (Q := fun e => e.isTight = false)
        (.bind fun _ => .bind fun _ => .bind fun _ => .bind fun _ => .pure rfl) hrest
      exact absurd (he.symm.trans hloose) (by decide)
    obtain ⟨b, hb⟩ := isPunctOf_stays s₁ compoundAssignments
    rw [bind_run hb, ite_run] at hrest
    split at hrest
    · have hloose := Gives.result (Q := fun e => e.isTight = false)
        (.bind fun _ => .bind fun _ => .bind fun _ => .bind fun _ => .bind fun _ => .pure rfl) hrest
      exact absurd (he.symm.trans hloose) (by decide)
    · obtain ⟨rfl, rfl⟩ := pure_ok hrest
      exact ⟨rfl, rfl⟩
  obtain ⟨rfl, rfl⟩ := hkept
  exact conditional_ok he hleft

theorem sequenceExpr_ok (he : e.isTight = true) (h : sequenceExpr g s = .ok e s') :
    g.assignment s = .ok e s' := by
  unfold sequenceExpr at h
  rw [start_run] at h
  obtain ⟨left, s₁, hleft, hrest⟩ := bind_eq_ok.1 h
  rw [isPunct_run, ite_run] at hrest
  split at hrest
  · have hloose := Gives.result (Q := fun e => e.isTight = false)
      (.bind fun _ => .bind fun _ => .pure rfl) hrest
    exact absurd (he.symm.trans hloose) (by decide)
  · obtain ⟨rfl, rfl⟩ := pure_ok hrest
    exact hleft

/-! ## Members and calls -/

/-- The expression is a further link behind another one: a call of it, or a compound. -/
def IsLinkOf (obj e : Expr) : Prop :=
  (∃ kind span parts, e = .compound kind span parts) ∨
    ∃ span args types, e = .call span obj args types

theorem optionalLink_gives (first : Nat) (obj : Expr) :
    Gives (IsLinkOf obj) (optionalLink g first obj) := by
  have hcompound : ∀ {kind : ExprKind} {span : Span} {parts : List Expr},
      Gives (IsLinkOf obj) (pure (.compound kind span parts)) := .pure (.inl ⟨_, _, _, rfl⟩)
  unfold optionalLink
  refine .bind fun _ => .bind fun _ => ?_
  split
  · exact .bind fun _ => .bind fun _ => hcompound
  · exact .bind fun _ => .bind fun _ => hcompound
  · refine .bind fun _ => .ite (.bind fun _ => ?_) ?_ <;>
      exact .bind fun _ => .bind fun _ => .bind fun _ => hcompound
  · exact .bind fun _ => .bind fun _ => hcompound

theorem callLink_gives (first : Nat) (callee : Expr) (types : List Expr) :
    Gives (IsLinkOf callee) (callLink g first callee types) := by
  unfold callLink
  refine .bind fun _ => .bind fun _ => .ite (.pure ?_) (.pure ?_)
  · exact .inl ⟨_, _, _, rfl⟩
  · exact .inr ⟨_, _, _, rfl⟩

theorem typedLink_gives (first : Nat) (noCall : Bool) (obj : Expr) :
    Gives (IsLinkOf obj) (typedLink g first noCall obj) := by
  unfold typedLink
  refine .bind fun _ => .bind fun _ => .ite (callLink_gives _ _ _) (.bind fun _ => .ite ?_ ?_)
  · exact .bind fun _ => .bind fun _ => .pure (.inl ⟨_, _, _, rfl⟩)
  · refine .bind fun _ => .ite (.bind fun _ => .bind fun _ => ?_) (.bind fun _ => ?_) <;>
      exact .pure (.inl ⟨_, _, _, rfl⟩)

/-- A parser gives something of one kind, or else nothing, and takes nothing then. -/
structure MayGive (Q : α → Prop) (p : Parser (Option α)) : Prop where
  outcome : ∀ {s s' : ParseState} {x : Option α}, p s = .ok x s' →
    x = none ∧ s' = s ∨ ∃ a, x = some a ∧ Q a

namespace MayGive

variable {Q : α → Prop}

theorem none : MayGive Q (pure none) :=
  ⟨fun h => .inl ⟨(pure_ok h).1.symm, (pure_ok h).2.symm⟩⟩

theorem given {p : Parser (Option α)} (h : Gives (fun x => ∃ a, x = some a ∧ Q a) p) : MayGive Q p :=
  ⟨fun hrun => .inr (h.result hrun)⟩

theorem attempt {p : Parser α} (h : Gives Q p) : MayGive Q (attempt p) := by
  refine ⟨fun hrun => ?_⟩
  unfold Parser.attempt at hrun
  split at hrun
  · next a s₁ hp =>
    obtain ⟨rfl, rfl⟩ := EStateM.Result.ok.inj hrun
    exact .inr ⟨a, rfl, h.result hp⟩
  · obtain ⟨rfl, rfl⟩ := EStateM.Result.ok.inj hrun
    exact .inl ⟨rfl, rfl⟩

theorem ite {c : Prop} [Decidable c] {p q : Parser (Option α)} (hp : MayGive Q p)
    (hq : MayGive Q q) : MayGive Q (if c then p else q) := by
  split
  · exact hp
  · exact hq

/-- A parser that only looks at the state is in front. -/
theorem look {p : Parser β} {q : β → Parser (Option α)} {f : ParseState → β}
    (hp : ∀ s, p s = .ok (f s) s) (hq : ∀ b, MayGive Q (q b)) : MayGive Q (p >>= q) := by
  refine ⟨fun {s s' x} hrun => ?_⟩
  rw [bind_run (hp s)] at hrun
  exact (hq _).outcome hrun

end MayGive

/-- A link that is there is a link, and where there is none nothing is taken. -/
theorem link_mayGive (first : Nat) (noCall : Bool) (obj : Expr) :
    MayGive (IsLinkOf obj) (link g first noCall obj) := by
  have hcompound : ∀ {kind : ExprKind} {span : Span} {parts : List Expr},
      ∃ e, some (Expr.compound kind span parts) = some e ∧ IsLinkOf obj e :=
    ⟨_, rfl, .inl ⟨_, _, _, rfl⟩⟩
  unfold link
  refine .look (fun _ => rfl) fun _ => ?_
  split
  · refine .ite (.given (.bind fun _ => ?_)) (.given ?_) <;>
      exact .some (optionalLink_gives first obj)
  · exact .given (.bind fun _ => .bind fun _ => .bind fun _ => .pure hcompound)
  · exact .given (.bind fun _ => .bind fun _ => .pure hcompound)
  · exact .ite .none (.given (.some (callLink_gives _ _ _)))
  · refine .given (.ite (.bind fun _ => .bind fun _ => ?_) ?_) <;>
      exact .bind fun _ => .bind fun _ => .pure hcompound
  · refine .look (fun _ => rfl) fun _ => .look (fun _ => rfl) fun _ => .ite (.given ?_) .none
    exact .bind fun _ => .bind fun _ => .pure hcompound
  · exact .look (fun _ => rfl) fun _ => .ite (.attempt (typedLink_gives _ _ _)) .none
  · exact .look (fun _ => rfl) fun _ => .ite (.attempt (typedLink_gives _ _ _)) .none
  · exact .none

/-- A chain of links is the first operand, if nothing is taken, or else ends with a link. -/
theorem linksUpTo_ok {first : Nat} {noCall : Bool} {fuel : Nat} {obj : Expr}
    (h : linksUpTo g first noCall fuel obj s = .ok e s') :
    e = obj ∧ s' = s ∨ ∃ obj', IsLinkOf obj' e ∧ (obj' = obj ∨ ∃ obj'', IsLinkOf obj'' obj') := by
  induction fuel generalizing obj s with
  | zero =>
    obtain ⟨rfl, rfl⟩ := pure_ok h
    exact .inl ⟨rfl, rfl⟩
  | succ fuel ih =>
    obtain ⟨x, s₁, hx, hrest⟩ := bind_eq_ok.1 h
    rcases (link_mayGive first noCall obj).outcome hx with ⟨rfl, rfl⟩ | ⟨obj', rfl, hlink⟩
    · obtain ⟨rfl, rfl⟩ := pure_ok hrest
      exact .inl ⟨rfl, rfl⟩
    · rcases ih hrest with ⟨rfl, -⟩ | ⟨obj'', hlast, rfl | hbefore⟩
      · exact .inr ⟨obj, hlink, .inl rfl⟩
      · exact .inr ⟨_, hlast, .inr ⟨obj, hlink⟩⟩
      · exact .inr ⟨obj'', hlast, .inr hbefore⟩

/-! ## Operands -/

theorem suffixed_ok {first : Nat} (he : e.isTight = true)
    (h : unaryExpr.suffixed g first s = .ok e s') : leftHandSide g s = .ok e s' := by
  obtain ⟨left, s₁, hleft, hrest⟩ := bind_eq_ok.1 h
  have hkept : e = left ∧ s' = s₁ := by
    rw [afterBreak_run, ite_run] at hrest
    split at hrest
    · obtain ⟨rfl, rfl⟩ := pure_ok hrest
      exact ⟨rfl, rfl⟩
    obtain ⟨b, hb⟩ := isPunctOf_stays s₁ ["++", "--"]
    rw [bind_run hb, ite_run] at hrest
    split at hrest
    · have hloose := Gives.result (Q := fun e => e.isTight = false)
        (.bind fun _ => .bind fun _ => .bind fun _ => .pure rfl) hrest
      exact absurd (he.symm.trans hloose) (by decide)
    · obtain ⟨rfl, rfl⟩ := pure_ok hrest
      exact ⟨rfl, rfl⟩
  obtain ⟨rfl, rfl⟩ := hkept
  exact hleft

/-- A tight expression in a statement was read as an operand, at the start of an expression. -/
theorem wholeExpression_ok {n : Nat} (he : e.isTight = true) (hmode : s.mode.inGenerator = false)
    (hless : s.token.lexeme ≠ .punct "<")
    (h : wholeExpression (Grammar.level (n + 2)) s = .ok e s') :
    ∃ s₁, unaryExpr (Grammar.level n)
        { s with mode := { s.mode with allowsIn := true }, arrowStart := some s.token.start } = .ok e s₁ ∧
      s' = { s₁ with mode := s.mode } := by
  obtain ⟨s₁, hrun, hs'⟩ := inMode_ok h
  have hassign : assignmentExpr (Grammar.level n)
      { s with mode := { s.mode with allowsIn := true } } = .ok e s₁ := sequenceExpr_ok he hrun
  have hunary := assignmentExpr_ok he (by exact hmode) (by exact hless) hassign
  exact ⟨s₁, hunary, hs'⟩

/-! ## Statements and scripts -/

theorem checkObject_tight (he : e.isTight = true) : checkObject e s = .ok () s := by
  cases e with
  | object => exact absurd he (by simp [Expr.isTight])
  | _ => rfl

/-- As an expression a name was read, or else that of the statement, with its end behind it. -/
theorem expressionStatement_ok {span : Span} (he : e.isTight = true)
    (h : expressionStatement g s = .ok (.expr span e) s') :
    ∃ e' s₁, wholeExpression g s = .ok e' s₁ ∧
      ((∃ id, e' = .ident id) ∨
        e' = e ∧ span = ⟨s.token.start, s'.lastStop⟩ ∧ semicolon s₁ = .ok () s') := by
  unfold expressionStatement at h
  rw [start_run] at h
  obtain ⟨e', s₁, he', hrest⟩ := bind_eq_ok.1 h
  refine ⟨e', s₁, he', ?_⟩
  by_cases hid : ∃ id, e' = .ident id
  · exact .inl hid
  refine .inr ?_
  have hlast : (do
      checkObject e'
      semicolon
      return .expr (← spanFrom s.token.start) e' : Parser Stmt) s₁ = .ok (.expr span e) s' := by
    cases e' with
    | ident id => exact absurd ⟨id, rfl⟩ hid
    | _ => exact hrest
  obtain ⟨u, s₂, hcheck, hend⟩ := bind_eq_ok.1 hlast
  obtain ⟨u', s₃, hsemi, hspan⟩ := bind_eq_ok.1 hend
  rw [spanFrom_run] at hspan
  obtain ⟨hexpr, rfl⟩ := pure_ok hspan
  obtain ⟨rfl, rfl⟩ := Stmt.expr.inj hexpr
  obtain ⟨-, rfl⟩ := EStateM.Result.ok.inj ((checkObject_tight he).symm.trans hcheck)
  exact ⟨rfl, rfl, hsemi⟩

/-- A list of one was made by a step that gave something, and one that did not. -/
theorem many_ok_singleton {step : Parser (Option α)} {a : α} (h : many step s = .ok [a] s') :
    ∃ s₁, step s = .ok (some a) s₁ ∧ step s₁ = .ok none s' := by
  unfold many at h
  rw [get_run] at h
  obtain ⟨x, s₁, hx, hrest⟩ := bind_eq_ok.1 h
  cases x with
  | none => exact absurd (pure_ok hrest).1 (by simp)
  | some b =>
    obtain ⟨bs, s₂, hbs, hcons⟩ := bind_eq_ok.1 (show (manyUpTo step _ >>= _) s₁ = _ from hrest)
    obtain ⟨hlist, rfl⟩ := pure_ok hcons
    obtain ⟨rfl, rfl⟩ := List.cons.inj hlist
    refine ⟨s₁, hx, ?_⟩
    obtain ⟨y, s₃, hy, hend⟩ := bind_eq_ok.1 hbs
    cases y with
    | none =>
      obtain ⟨-, rfl⟩ := pure_ok hend
      exact hy
    | some c =>
      obtain ⟨cs, s₄, -, hcons'⟩ := bind_eq_ok.1 (show (manyUpTo step _ >>= _) s₃ = _ from hend)
      exact absurd (pure_ok hcons').1 (by simp)

/-- A script of one statement ends behind it. -/
theorem program_ok_singleton {x : Stmt} (h : Parser.program g s = .ok [x] s') :
    g.statement s = .ok x s' ∧ s'.token.lexeme = .eof := by
  obtain ⟨s₁, hx, hnone⟩ := many_ok_singleton h
  rw [atEnd_run, ite_run] at hx hnone
  split at hx
  · exact absurd (pure_ok hx).1 (by simp)
  obtain ⟨y, s₂, hy, hsome⟩ := bind_eq_ok.1 hx
  obtain ⟨hxy, rfl⟩ := pure_ok hsome
  obtain rfl := Option.some.inj hxy
  split at hnone
  · next heof =>
    obtain ⟨-, rfl⟩ := pure_ok hnone
    exact ⟨hy, eq_of_beq heof⟩
  · obtain ⟨z, s₃, -, hz⟩ := bind_eq_ok.1 hnone
    exact absurd (pure_ok hz).1 (by simp)

end Parser

/-- A script of one statement is that statement, and no fault is on record at its end. -/
theorem parse_ok_singleton {lang : Lang} {cs : List Char} {x : Stmt} (h : parse lang cs = .ok [x]) :
    ∃ s', (Grammar.level (Grammar.levelsFor cs.length)).statement (.ofChars lang cs) = .ok x s' ∧
      s'.token.lexeme = .eof ∧ s'.recovered = none := by
  unfold parse at h
  dsimp only at h
  split at h
  · exact nomatch h
  · next body s' hrun =>
    split at h
    · exact nomatch h
    · next hrecovered =>
      obtain rfl := Except.ok.inj h
      obtain ⟨hx, heof⟩ := Parser.program_ok_singleton hrun
      exact ⟨s', hx, heof, hrecovered⟩

end TemplateSyntax.Script
