import TemplateSyntax.Proofs.Assembler
import TemplateSyntax.Proofs.ContentMode

/-! # A lexer whose interpolation is off

As long as double braces do not count, a lexer that is not between any never gets there, and starts no
token for them.  So an assembler that takes its tokens puts out no mustache. -/

namespace TemplateSyntax

/-- The states between double braces, where a reference is left for `back`. -/
def LexState.inBraces (back : LexState) : LexState → Bool
  | .interpolationStart | .interpolationData | .interpolationEnd => true
  | s => s.inReference && back == .interpolationData

namespace Lexer

variable {l l' : Lexer}

/-- Double braces do not count, and the lexer is not between any. -/
structure Quiet (l : Lexer) : Prop where
  off : l.interpolating = false
  outside : l.returnState.inBraces l.state = false

theorem inBraces_of_inReference {back s : LexState} (hs : s.inReference = true) :
    back.inBraces s = (back == .interpolationData) := by
  cases s <;> first | rfl | exact absurd hs (by decide)

/-- A reference outside of double braces is left for content outside of them. -/
theorem ReferenceStep.outside (h : ReferenceStep l l') (hr : l.Returns)
    (hs : l.state.inReference = true) (hq : l.returnState.inBraces l.state = false) :
    l'.returnState.inBraces l'.state = false := by
  rw [inBraces_of_inReference hs] at hq
  cases h with
  | goesOn h hs' => rw [inBraces_of_inReference hs', h.back, hq]
  | goesBack h hs' =>
    rw [h.back, hs']
    have hback := hr.back
    generalize l.returnState = back at hq hback
    cases back <;> first | rfl | exact absurd hback (by decide) | exact absurd hq (by decide)

/-- A step does not lead between double braces that do not count. -/
theorem step_outside (h : l.Quiet) (hr : l.Returns) :
    l.step.returnState.inBraces l.step.state = false := by
  have houtside := h.outside
  by_cases hreference : l.state.inReference = true
  · exact (step_referenceStep hreference).outside hr hreference houtside
  unfold step
  dsimp only
  split
  case h_37 hs | h_38 hs | h_39 hs | h_40 hs | h_41 hs | h_42 hs | h_43 hs | h_44 hs =>
    exact absurd (by rw [hs]; rfl) hreference
  case h_45 hs | h_46 hs | h_47 hs =>
    rw [hs] at houtside
    exact absurd houtside.symm Bool.false_ne_true
  all_goals
    simp only [onData, onRcdata, onRawText, onTextLessThanSign, onTextEndTagOpen, onTextEndTagName,
      onTagOpen, onEndTagOpen, onTagName, onBeforeAttributeName, onAttributeName,
      onAfterAttributeName, onBeforeAttributeValue, onAttributeValueQuoted,
      onAttributeValueUnquoted, onAfterAttributeValueQuoted, onSelfClosingStartTag,
      onBogusComment, onMarkupDeclarationOpen, onCommentStart, onCommentStartDash, onComment,
      onCommentLessThanSign, onCommentLessThanSignBang, onCommentLessThanSignBangDash,
      onCommentLessThanSignBangDashDash, onCommentEndDash, onCommentEnd, onCommentEndBang,
      onCdataSection, onCdataSectionBracket, onCdataSectionEnd, h.off, Bool.false_eq_true, if_false]
    repeat' split
  all_goals rfl

/-- What a lexer whose interpolation is off hands out, and what it is like behind that. -/
structure QuietPull (handed : Option Token × Lexer) : Prop where
  outside : handed.2.returnState.inBraces handed.2.state = false
  kinds : handed.2.buffer.Kinds fun k => k ≠ .interpolationStart
  token : ∀ t ∈ handed.1, t.kind ≠ .interpolationStart

theorem advanceStep_quiet (h : l.Quiet) (hr : l.Returns)
    (hk : l.buffer.Kinds fun k => k ≠ .interpolationStart) :
    l.advanceStep.Quiet ∧ l.advanceStep.buffer.Kinds fun k => k ≠ .interpolationStart := by
  obtain ⟨-, hbuffer, hstate, hback, houter⟩ := l.entered_parts
  have hinterpolating : l.advanceStep.interpolating = l.interpolating :=
    congrArg (fun x => x.2.2) l.advanceStep_told
  have hentered : l.entered.interpolating = l.interpolating := by
    rw [← hinterpolating, advanceStep_eq]
    have hstep : l.entered.step.interpolating = l.entered.interpolating :=
      congrArg (fun x => x.2.2) l.entered.step_told
    split <;> exact hstep.symm
  have hquiet : l.entered.Quiet := ⟨hentered.trans h.off, by rw [hback, hstate]; exact h.outside⟩
  have hs := step_outside hquiet ⟨hback ▸ hr.back, houter ▸ hr.outer⟩
  have hedited : l.buffer.Edited (fun k => k ≠ .interpolationStart) l.entered.locator
      l.entered.step.buffer := by
    rw [← hbuffer]
    refine (step_edited ?_ ?_).mono ?_
    · intro heq
      exact absurd (heq ▸ hquiet.outside) (by simp [LexState.inBraces])
    · intro heq
      exact absurd (heq ▸ hquiet.outside) (by simp [LexState.inBraces])
    · rintro k hk rfl
      exact absurd hk (by decide)
  have hkinds := hk.edited hedited
  refine ⟨⟨hinterpolating.trans h.off, ?_⟩, ?_⟩
  · rw [advanceStep_eq]
    split <;> exact hs
  · rw [advanceStep_eq]
    split
    · exact hkinds.commitHeldBack.commitCurrent
    · exact hkinds

theorem run_quiet (h : l.Quiet) (hr : l.Returns)
    (hk : l.buffer.Kinds fun k => k ≠ .interpolationStart) (fuel : Nat) :
    QuietPull (l.run fuel) := by
  have hready : ∀ {l : Lexer} {t : Token} {ready : List Token}, l.Quiet →
      l.buffer.Kinds (fun k => k ≠ .interpolationStart) → l.buffer.ready = t :: ready →
      QuietPull (some t, { l with buffer := { l.buffer with ready } }) := by
    intro l t ready h hk heq
    refine ⟨h.outside, { hk with ready := fun x hx => hk.ready x (heq ▸ List.mem_cons_of_mem t hx) },
      fun x hx => Option.some.inj hx ▸ hk.ready t (heq ▸ List.mem_cons_self ..)⟩
  induction fuel generalizing l with
  | zero =>
    unfold Lexer.run
    split
    · next heq => exact hready h hk heq
    · split <;> exact ⟨h.outside, hk, nofun⟩
  | succ fuel ih =>
    unfold Lexer.run
    split
    · next heq => exact hready h hk heq
    · split
      · exact ⟨h.outside, hk, nofun⟩
      · obtain ⟨hquiet, hkinds⟩ := advanceStep_quiet h hr hk
        exact ih hquiet (advanceStep_steps hr).returns hkinds

/-- No token starts an interpolation. -/
theorem pull_quiet (h : l.Quiet) (hr : l.Returns)
    (hk : l.buffer.Kinds fun k => k ≠ .interpolationStart) : QuietPull l.pull :=
  run_quiet h hr hk _

end Lexer

/-! ## Mustaches -/

namespace Assembler

variable {a : Assembler} {t : Token}

/-- No mustache is open, and none was put out. -/
structure NoMustache (a : Assembler) : Prop where
  opening : a.opening = none
  output : ∀ m, .mustache m ∉ a.output

namespace NoMustache

theorem emitCurrent (h : a.NoMustache) : a.emitCurrent.NoMustache := by
  unfold Assembler.emitCurrent
  split
  · next u _ =>
    refine ⟨h.opening, fun m hm => ?_⟩
    rcases Array.mem_push.1 hm with hm | hm
    · exact h.output m hm
    · cases u <;> cases hm
  · exact h

theorem commit (h : a.NoMustache) : a.commit.NoMustache := by
  rw [commit_of_opening h.opening]
  exact { h.emitCurrent with }

/-- A mustache that was not closed ends up as text. -/
theorem flushInterpolation (h : ∀ m, .mustache m ∉ a.output) : a.flushInterpolation.NoMustache := by
  unfold Assembler.flushInterpolation
  split
  · next ho => exact ⟨ho, h⟩
  · dsimp only
    split
    · exact ⟨rfl, h⟩
    · have hrest : ({ a with opening := none, inside := #[] } : Assembler).NoMustache := ⟨rfl, h⟩
      exact { hrest.emitCurrent with }

theorem text (h : a.NoMustache) : (a.text t).NoMustache := by
  unfold Assembler.text
  rw [h.opening]
  dsimp only [Option.isSome_none]
  rw [if_neg Bool.false_ne_true]
  split
  · split
    · exact ⟨rfl, h.output⟩
    · exact { h.commit with }
  · exact { h.commit with }

/-- A token that opens no mustache leaves it so. -/
theorem process (h : a.NoMustache) (ht : t.kind ≠ .interpolationStart) :
    (a.process t).NoMustache := by
  have hkept : (a.keep t).NoMustache := { h with }
  have hpart : (a.tagPart t).NoMustache := by
    unfold Assembler.tagPart
    repeat' split
    all_goals exact { h with }
  unfold Assembler.process
  split
  case h_1 | h_2 => exact { h with }
  case h_3 | h_4 => exact { hkept.commit with }
  case h_5 =>
    unfold Assembler.identifier
    dsimp only
    repeat' split
    all_goals exact { h with }
  case h_6 => exact hpart
  case h_7 =>
    unfold Assembler.literal
    dsimp only
    repeat' split
    all_goals exact { h with }
  case h_8 | h_9 =>
    unfold Assembler.tagClose
    dsimp only
    refine commit ?_
    repeat' split
    all_goals exact { h with }
  case h_10 hk => exact absurd hk ht
  case h_11 =>
    unfold Assembler.interpolationEnd
    dsimp only
    split
    · exact hkept.text
    · next opening ho => exact absurd (h.opening.symm.trans ho) nofun
  case h_12 =>
    split
    · exact hpart
    · exact hkept.text
  all_goals exact hkept.text

end NoMustache
end Assembler
end TemplateSyntax
