import TemplateSyntax.Proofs.OutlineMove
import TemplateSyntax.Proofs.ParseStages

/-! # Tokens that a builder takes

A run of the tree builder pulls one token after the other.  `Takes` says which ones it has taken on
the way from one builder to another, so that what a token keeps can be carried along a whole run. -/

namespace TemplateSyntax

/-- The builder `b'` comes from `b` by taking the tokens `ts`, one after the other. -/
inductive Builder.Takes (b : Builder) : List Token → Builder → Prop
  | nothing : Takes b [] b
  | token {ts : List Token} {b' : Builder} {t : Token} {x : Lexer} (h : Takes b ts b')
      (hpull : b'.lexer.pull = (some t, x)) : Takes b (ts ++ [t]) (b'.take t x)

namespace Builder.Takes

variable {b b' b'' : Builder} {ts ts' : List Token}

theorem trans (h : Takes b ts b') (h' : Takes b' ts' b'') : Takes b (ts ++ ts') b'' := by
  induction h' with
  | nothing => rwa [List.append_nil]
  | token h' hpull ih =>
    rw [← List.append_assoc]
    exact ih.token hpull

/-- The builder in front of some tokens more. -/
theorem cons {t : Token} {x : Lexer} (hpull : b.lexer.pull = (some t, x))
    (h : Takes (b.take t x) ts b') : Takes b (t :: ts) b' :=
  (Takes.nothing.token hpull).trans h

/-- The tokens that are taken belong to the text. -/
theorem runs {cs : List Char} {l : Locator} {taken : List Token} (h : Takes b ts b')
    (hr : Runs cs l taken b) : Runs cs l (taken ++ ts) b' := by
  induction h with
  | nothing => rwa [List.append_nil]
  | token h hpull ih =>
    cases ih.next with
    | token hpull' hx hloc hruns hlt hc =>
      obtain ⟨ht, rfl⟩ := Prod.mk.inj (hpull.symm.trans hpull')
      obtain rfl := Option.some.inj ht
      rwa [← List.append_assoc]
    | ended hpull' hx hloc hended =>
      exact absurd (hpull.symm.trans hpull') (by simp)

end Builder.Takes

/-- What holds of a lexer however it is steered stays so when units are taken. -/
theorem Builder.drain_lexer {P : Lexer → Prop} (hp : ∀ {x y : Lexer}, x.Steered y → P x → P y)
    {b : Builder} (h : P b.lexer) : P b.drain.lexer := by
  simp only [Builder.drain, Assembler.takeOutput]
  generalize hstart : ({ b with assembler := _ } : Builder) = start
  have hlexer : P start.lexer := hstart ▸ h
  exact Array.foldl_induction (fun _ (b' : Builder) => P b'.lexer) hlexer
    fun i b' ih => hp (onUnit_steered (.refl b'.lexer) _).1 ih

/-- A run with enough steps takes all tokens up to the end of the text. -/
theorem Runs.exists_takes {cs : List Char} {l : Locator} {taken : List Token} {b : Builder}
    {fuel : Nat} (h : Runs cs l taken b) (hfuel : b.lexer.tokensLeft < fuel) :
    ∃ ts b' x, b.Takes ts b' ∧ b'.lexer.pull = (none, x) ∧
      Builder.run fuel b = b'.atEnd x := by
  induction fuel generalizing b taken with
  | zero => omega
  | succ fuel ih =>
    cases h.next with
    | @token t x hpull hx hloc hruns hlt hc =>
      obtain ⟨ts, b', y, htakes, hend, hrun⟩ := ih hruns (by omega)
      exact ⟨t :: ts, b', y, .cons hpull htakes, hend, (Builder.run_token hpull).trans hrun⟩
    | ended hpull hx hloc hended =>
      exact ⟨[], b, _, .nothing, hpull, Builder.run_atEnd hpull⟩

namespace Template

variable (text : String) (o : Options)

/-- The builder in front of a template. -/
def startOf : Builder := .ofChars text.toList (locatorOf text o) o.tracing

theorem runs_startOf : Runs text.toList (locatorOf text o) [] (startOf text o) :=
  Runs.start text.toList o.origin o.tracing

/-- What the builder behind the outline of a template comes from. -/
structure TakesAll (ts : List Token) (b : Builder) (x : Lexer) : Prop where
  takes : (startOf text o).Takes ts b
  pull : b.lexer.pull = (none, x)
  runs : Runs text.toList (locatorOf text o) ts b
  tracks : x.Tracks text.toList ts
  locator : x.locator = locatorOf text o
  ended : Ended text.toList (locatorOf text o) ts (b.atEnd x)
  builderOf : builderOf text o = (b.atEnd x).closeAll.placeRoot

/-- All tokens of a template are taken. -/
theorem exists_takesAll : ∃ ts b x, TakesAll text o ts b x := by
  obtain ⟨ts, b, x, htakes, hpull, hrun⟩ := (runs_startOf text o).exists_takes
    (Builder.tokensLeft_ofChars text.toList o.origin o.tracing)
  have hruns : Runs text.toList (locatorOf text o) ts b := htakes.runs (runs_startOf text o)
  cases hruns.next with
  | token hpull' _ _ _ _ _ => exact absurd (hpull.symm.trans hpull') (by simp)
  | ended hpull' hx hloc hended =>
    obtain ⟨-, rfl⟩ := Prod.mk.inj (hpull.symm.trans hpull')
    exact ⟨ts, b, x, htakes, hpull, hruns, hx, hloc, hended,
      congrArg (fun b : Builder => b.closeAll.placeRoot) hrun⟩

end Template
end TemplateSyntax
