import TemplateSyntax.Proofs.ContentMode
import TemplateSyntax.Proofs.Takes

/-! # Tokens of double braces

The tokens around an interpolation stand for two braces each, whatever the text. -/

namespace TemplateSyntax

/-- The braces that a token of this kind stands for. -/
def TokenKind.braces? : TokenKind → Option String
  | .interpolationStart => some "\x7b\x7b"
  | .interpolationEnd => some "\x7d\x7d"
  | _ => none

theorem TokenKind.braces?_eq_none {k : TokenKind} (h : k.isBrace = false) : k.braces? = none := by
  cases k <;> first | rfl | exact absurd h (by decide)

/-- A token that stands for braces has them as its value. -/
def Token.Braced (t : Token) : Prop := ∀ s, t.kind.braces? = some s → t.value = s

namespace TokenBuffer

variable {l : Locator} {b b' : TokenBuffer} {i : Nat} {k : TokenKind}

/-- The tokens that are ready stand for their braces, and none that stands for braces is being built. -/
structure Braced (b : TokenBuffer) : Prop where
  current : ∀ t, b.current = some t → t.kind.isBrace = false
  heldBack : ∀ t, b.heldBack = some t → t.kind.isBrace = false
  ready : ∀ t ∈ b.ready, t.Braced

namespace Braced

theorem handOver (h : b.Braced) {t : PendingToken} (ht : (l.token t i).Braced) :
    (b.handOver l t i).Braced where
  current := h.current
  heldBack := h.heldBack
  ready x hx := by
    rcases List.mem_append.1 hx with hx | hx
    · exact h.ready x hx
    · rw [List.mem_singleton.1 hx]
      exact ht

theorem handOverOther (h : b.Braced) {t : PendingToken} (ht : t.kind.isBrace = false) :
    (b.handOver l t i).Braced := by
  refine h.handOver fun s hs => ?_
  rw [show (l.token t i).kind = t.kind from rfl, TokenKind.braces?_eq_none ht] at hs
  cases hs

theorem dropCurrent (h : b.Braced) : ({ b with current := none } : TokenBuffer).Braced :=
  { h with current := nofun }

theorem commitCurrent (h : b.Braced) : (b.commitCurrent l i).Braced := by
  unfold TokenBuffer.commitCurrent
  split
  · next t ht => exact h.dropCurrent.handOverOther (h.current t ht)
  · exact h

theorem commitHeldBack (h : b.Braced) : (b.commitHeldBack l i).Braced := by
  unfold TokenBuffer.commitHeldBack
  split
  · next t ht =>
    have hdrop : ({ b with heldBack := none } : TokenBuffer).Braced := { h with heldBack := nofun }
    exact hdrop.handOverOther (h.heldBack t ht)
  · exact h

/-- As long as no token of braces is started, nothing changes. -/
theorem edited (h : b.Braced) (he : Edited (fun k => k.isBrace = false) l b b') : b'.Braced := by
  induction he with
  | refl => exact h
  | startAt _ hk ih => exact { ih.commitCurrent with current := fun t ht => Option.some.inj ht ▸ hk }
  | finish _ ih =>
    unfold TokenBuffer.finish
    split
    · next t ht => exact ih.dropCurrent.handOverOther (ih.current t ht)
    · exact { ih with }
  | push _ ih =>
    refine { ih with current := fun t ht => ?_ }
    obtain ⟨t', ht', rfl⟩ := Option.map_eq_some_iff.1 ht
    exact ih.current t' ht'
  | hold _ ih => exact { ih with current := nofun, heldBack := ih.current }
  | restore _ ih => exact { ih with current := ih.heldBack, heldBack := nofun }
  | commitCurrent _ ih => exact ih.commitCurrent
  | commitHeldBack _ ih => exact ih.commitHeldBack

/-- A token of braces is started and finished at once. -/
theorem whole (h : b.Braced) {s : String} (hk : k.braces? = some s) (j : Nat) :
    (((b.startAt l k i).push s).finish l j).Braced := by
  refine (dropCurrent (h.commitCurrent (i := i))).handOver (t := ⟨k, i, "" ++ s⟩) fun s' hs => ?_
  have heq : some s = some s' := hk.symm.trans hs
  rw [← Option.some.inj heq]
  exact String.empty_append

end Braced
end TokenBuffer

namespace Lexer

variable {l : Lexer}

theorem step_braced (h : l.buffer.Braced) : l.step.buffer.Braced := by
  by_cases h₁ : l.state = .interpolationStart
  · have hstep : l.step = l.onInterpolationStart l.cursor.char := by
      unfold step
      simp only [h₁]
    rw [hstep]
    unfold onInterpolationStart
    split
    · exact h.whole rfl _
    · exact h.edited (.append .refl (isBrace_textKind _))
  · by_cases h₂ : l.state = .interpolationEnd
    · have hstep : l.step = l.onInterpolationEnd l.cursor.char := by
        unfold step
        simp only [h₂]
      rw [hstep]
      unfold onInterpolationEnd
      split
      · exact h.whole rfl _
      · exact h.edited (.append .refl (by rfl))
    · exact h.edited (step_edited h₁ h₂)

theorem advanceStep_braced (h : l.buffer.Braced) : l.advanceStep.buffer.Braced := by
  obtain ⟨-, hbuffer, -⟩ := l.entered_parts
  have hstep := step_braced (l := l.entered) (hbuffer ▸ h)
  rw [advanceStep_eq]
  split
  · exact hstep.commitHeldBack.commitCurrent
  · exact hstep

/-- What is handed out stands for its braces. -/
theorem run_braced (h : l.buffer.Braced) (fuel : Nat) :
    (l.run fuel).2.buffer.Braced ∧ ∀ t ∈ (l.run fuel).1, t.Braced := by
  have hready : ∀ {l : Lexer} {t : Token} {ready : List Token}, l.buffer.Braced →
      l.buffer.ready = t :: ready →
        ({ l.buffer with ready } : TokenBuffer).Braced ∧ t.Braced := fun h heq =>
    ⟨{ h with ready := fun x hx => h.ready x (heq ▸ List.mem_cons_of_mem _ hx) },
      h.ready _ (heq ▸ List.mem_cons_self ..)⟩
  induction fuel generalizing l with
  | zero =>
    unfold Lexer.run
    split
    · next heq => exact ⟨(hready h heq).1, fun x hx => Option.some.inj hx ▸ (hready h heq).2⟩
    · split <;> exact ⟨h, nofun⟩
  | succ fuel ih =>
    unfold Lexer.run
    split
    · next heq => exact ⟨(hready h heq).1, fun x hx => Option.some.inj hx ▸ (hready h heq).2⟩
    · split
      · exact ⟨h, nofun⟩
      · exact ih (advanceStep_braced h)

end Lexer

/-- However a lexer is steered, it keeps its tokens. -/
theorem Lexer.Steered.buffer_eq {x y : Lexer} (h : x.Steered y) : y.buffer = x.buffer := by
  cases h with
  | told h =>
    obtain ⟨ns, interpolating, log, rfl⟩ := h
    rfl
  | entered h hs =>
    obtain ⟨ns, interpolating, log, rfl⟩ := h
    rw [Lexer.enter_eq]

/-- All tokens that are taken stand for their braces. -/
theorem Builder.Takes.braced {b b' : Builder} {ts : List Token} (h : b.Takes ts b')
    (hb : b.lexer.buffer.Braced) : b'.lexer.buffer.Braced ∧ ∀ t ∈ ts, t.Braced := by
  induction h with
  | nothing => exact ⟨hb, fun t ht => absurd ht List.not_mem_nil⟩
  | @token ts b' t x h hpull ih =>
    have hrun := Lexer.run_braced ih.1 b'.lexer.stepsLeft
    rw [show b'.lexer.run b'.lexer.stepsLeft = (some t, x) from hpull] at hrun
    refine ⟨?_, fun t' ht' => ?_⟩
    · refine Builder.drain_lexer (P := fun x => x.buffer.Braced) (fun hs hx => ?_) hrun.1
      rw [hs.buffer_eq]
      exact hx
    · rcases List.mem_append.1 ht' with ht' | ht'
      · exact ih.2 t' ht'
      · rw [List.mem_singleton.1 ht']
        exact hrun.2 t rfl

end TemplateSyntax
