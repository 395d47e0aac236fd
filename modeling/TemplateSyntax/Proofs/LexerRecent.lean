import TemplateSyntax.Proofs.LexerRun

/-! # Diagnostics of the lexer and the text that was read

A diagnostic of the lexer never stands behind the text that was read, and in front of the last
character where that is the `>` of a tag. -/

namespace TemplateSyntax
namespace Lexer

open Text (byteLength From Between)

variable {cs : List Char} {taken : List Token} {l : Lexer} {i j : Nat}

/-- All diagnostics stand at a template index or in front of it. -/
def UpTo (l : Lexer) (i : Nat) : Prop := ∀ d ∈ l.diagnostics, d.offset ≤ l.locator.host i

theorem UpTo.mono (h : l.UpTo i) (hle : i ≤ j) : l.UpTo j := fun d hd =>
  Nat.le_trans (h d hd) (Nat.add_le_add_left hle _)

theorem UpTo.reportAt (h : l.UpTo i) (hle : j ≤ i) (cause : Cause) :
    (l.reportAt cause j).UpTo i := by
  intro d hd
  rcases Array.mem_push.1 hd with hd | rfl
  · exact h d hd
  · exact Nat.add_le_add_left hle _

theorem UpTo.report (h : l.UpTo l.cursor.start) (cause : Cause) :
    (l.report cause).UpTo l.cursor.start :=
  h.reportAt (Nat.le_refl _) cause

theorem flushDecoded_upTo (decoded : String) (stop : Nat) :
    (l.flushDecoded decoded stop).UpTo i ↔ l.UpTo i := by
  unfold Lexer.flushDecoded
  dsimp only
  split <;> exact Iff.rfl

theorem UpTo.finishNumericReference (h : l.UpTo l.cursor.start) (stop : Nat) :
    (l.finishNumericReference stop).UpTo l.cursor.start := by
  unfold Lexer.finishNumericReference
  dsimp only
  rw [flushDecoded_upTo]
  split
  · exact h.report _
  · exact h

/-- What a step has read and reported: no diagnostic stands behind the text that was read, and none
behind the `>` of a tag. -/
structure Recent (cs : List Char) (l : Lexer) : Prop where
  upTo : l.UpTo (l.frontier l.again)
  behind : l.again = false → l.cursor.char = some '>' →
    Between cs l.cursor.start ['>'] l.cursor.index ∧ l.UpTo l.cursor.start

/-- A step that takes the character as it is. -/
theorem Recent.plain {l' : Lexer} (h : Enters cs taken l l.state) (hc : l'.cursor = l.cursor)
    (hu : l'.UpTo l.cursor.start) : l'.Recent cs where
  upTo := by
    refine hu.mono ?_
    cases l'.again with
    | true => exact Nat.le_of_eq (congrArg Cursor.start hc).symm
    | false => exact Nat.le_trans h.steady.on.start_le_index (Nat.le_of_eq (congrArg Cursor.index hc).symm)
  behind _ hchar := by
    rw [hc] at hchar ⊢
    exact ⟨h.steady.on.between hchar (by decide), hu⟩

/-- A step that takes text behind the character as well. -/
theorem Recent.skip {l' : Lexer} {n : Nat} (hc : l'.cursor = l.cursor.skip n)
    (ha : l'.again = false) (hne : l.cursor.char ≠ some '>') (hu : l'.UpTo (l.cursor.start + n)) :
    l'.Recent cs where
  upTo := by
    rw [ha]
    exact hu.mono (Nat.le_of_eq (congrArg Cursor.index hc).symm)
  behind _ hchar := by
    rw [hc] at hchar
    exact absurd hchar hne

theorem char_ne_of_isPrefixOf (h : Enters cs taken l l.state) {c : Char} {word : List Char}
    (hp : (c :: word).isPrefixOf l.cursor.here = true) (hc : c ≠ '>') : l.cursor.char ≠ some '>' := by
  intro hchar
  rw [(h.steady.on.plain hchar (by decide)).1] at hp
  simp [List.isPrefixOf, hc] at hp

theorem onMarkupDeclarationOpen_recent (h : Enters cs taken l l.state) (hu : l.UpTo l.cursor.start)
    (c : Option Char) : (l.onMarkupDeclarationOpen c).Recent cs := by
  unfold onMarkupDeclarationOpen
  split
  · next hp =>
    exact .skip rfl h.quiet.1 (char_ne_of_isPrefixOf h hp (by decide))
      (hu.mono (Nat.le_add_right _ _))
  · dsimp only
    split
    · next hp =>
      rw [Bool.and_eq_true] at hp
      exact .skip rfl h.quiet.1 (char_ne_of_isPrefixOf h hp.1 (by decide))
        (hu.mono (Nat.le_add_right _ _))
    · split <;> exact .plain h rfl (hu.report _)

/-- How a reference by name ends, which `onNamedCharacterReference` chooses. -/
theorem flushName_upTo {stop : Nat} (h : l.UpTo stop) (found : NamedReference.Found)
    (goesOn : Bool) :
    (if l.returnState.isAttributeValue && !found.terminated && goesOn then l.flushRaw stop
      else if found.terminated then l.flushDecoded found.value stop
      else (l.reportAt .missingSemicolonAfterCharacterReference stop).flushDecoded found.value
        stop).UpTo stop := by
  split
  · exact h
  · split
    · exact (flushDecoded_upTo _ _).2 h
    · exact (flushDecoded_upTo _ _).2 (h.reportAt (Nat.le_refl _) _)

theorem onNamedCharacterReference_recent (h : Enters cs taken l l.state)
    (hu : l.UpTo l.cursor.start) : l.onNamedCharacterReference.Recent cs := by
  unfold onNamedCharacterReference
  split
  · exact .plain h rfl hu
  · next found hf =>
    have hne : l.cursor.char ≠ some '>' := by
      intro hchar
      obtain ⟨raw, back, heq, -, hraw, hchars, -⟩ := NamedReference.match?_eq_some hf
      rw [(h.steady.on.plain hchar (by decide)).1] at heq
      obtain ⟨c, raw, rfl⟩ := List.exists_cons_of_ne_nil hraw
      obtain ⟨rfl, -⟩ := List.cons.inj heq
      exact absurd (hchars '>' (List.mem_cons_self ..)) (by decide)
    have hkeeps := flushName_keeps l found (l.cursor.start + found.length)
    refine .skip (congrArg (Cursor.skip · found.length) (hkeeps _).cursor)
      ((hkeeps _).again.trans h.quiet.1) hne ?_
    exact flushName_upTo (hu.mono (Nat.le_add_right _ found.length)) found _

/-- The end of a numeric reference, in front of the state that it goes back to. -/
theorem finishNumericReference_recent (h : Enters cs taken l l.state) {l' : Lexer}
    (hc : l'.cursor = l.cursor) (hu : l'.UpTo l.cursor.start) (stop : Nat) (s : LexState) :
    ((l'.finishNumericReference stop).goto s).Recent cs ∧
      ((l'.finishNumericReference stop).reconsume s).Recent cs := by
  have hcursor := (finishNumericReference_keeps l' stop).cursor.trans hc
  have hup : (l'.finishNumericReference stop).UpTo l.cursor.start := by
    rw [← hc] at hu ⊢
    exact hu.finishNumericReference stop
  generalize l'.finishNumericReference stop = l'' at hcursor hup
  exact ⟨.plain h hcursor hup, .plain h hcursor hup⟩

theorem onNumericReferenceDigits_recent (h : Enters cs taken l l.state)
    (hu : l.UpTo l.cursor.start) (isDigit : Char → Bool) (radix : Nat) (s : LexState)
    (c : Option Char) : (l.onNumericReferenceDigits isDigit radix s c).Recent cs := by
  have hmissing : (((l.report .missingSemicolonAfterCharacterReference).finishNumericReference
      l.cursor.start).reconsume l.returnState).Recent cs :=
    (@finishNumericReference_recent cs taken l h
      (l.report .missingSemicolonAfterCharacterReference) rfl (hu.report _) l.cursor.start
      l.returnState).2
  unfold onNumericReferenceDigits
  split
  · split
    · exact .plain h rfl hu
    · split
      · exact (finishNumericReference_recent h rfl hu l.cursor.index l.returnState).1
      · exact hmissing
  · exact hmissing

theorem onInterpolationData_recent (h : Enters cs taken l .interpolationData)
    (hs : l.state = .interpolationData) (hu : l.UpTo l.cursor.start) :
    (l.onInterpolationData l.cursor.char).Recent cs := by
  have henters : Enters cs taken l l.state := hs ▸ h
  have hstart : Surrounded cs l.outerState l.interpolationStart := h.stage.1
  unfold onInterpolationData
  split
  · exact .plain henters rfl hu
  · exact .plain henters rfl hu
  · next hc =>
    have hle : l.interpolationStart ≤ l.cursor.start := by
      rw [(h.steady.on.eof hc).1]
      exact hstart.start_le
    exact .plain henters rfl (hu.reportAt hle _)
  · exact .plain henters rfl hu

/-- No step reports anything behind the text that it takes. -/
theorem step_recent (h : Enters cs taken l l.state) (hu : l.UpTo l.cursor.start) :
    l.step.Recent cs := by
  unfold step
  dsimp only
  split
  case h_23 => exact onMarkupDeclarationOpen_recent h hu _
  case h_38 => exact onNamedCharacterReference_recent h hu
  case h_43 | h_44 => exact onNumericReferenceDigits_recent h hu ..
  case h_46 hs => exact onInterpolationData_recent (hs ▸ h) hs hu
  all_goals
    simp only [onData, onRcdata, onRawText, onTagOpen, onEndTagOpen, onTagName, onTextLessThanSign,
      onTextEndTagOpen, onTextEndTagName, onBeforeAttributeName, onAttributeName,
      onAfterAttributeName, onBeforeAttributeValue, onAttributeValueQuoted,
      onAttributeValueUnquoted, onAfterAttributeValueQuoted, onSelfClosingStartTag,
      onBogusComment, onCommentStart, onCommentStartDash, onComment,
      onCommentLessThanSign, onCommentLessThanSignBang, onCommentLessThanSignBangDash,
      onCommentLessThanSignBangDashDash, onCommentEndDash, onCommentEnd, onCommentEndBang,
      onCdataSection, onCdataSectionBracket, onCdataSectionEnd, onCharacterReference,
      onAmbiguousAmpersand, onNumericCharacterReference, onNumericReferenceStart,
      onInterpolationStart, onInterpolationEnd]
    repeat' split
  all_goals
    first
      | exact .plain h rfl hu
      | exact .plain h rfl (hu.report _)

/-! ## Runs -/

/-- The next step takes a character that nothing was reported behind. -/
theorem Recent.entered (h : l.Recent cs) : l.entered.UpTo l.entered.cursor.start := by
  have hup := h.upTo
  unfold Lexer.entered
  cases ha : l.again with
  | true =>
    rw [ha] at hup
    exact hup
  | false =>
    rw [ha] at hup
    have hmoved : l.moveOn.UpTo l.moveOn.cursor.start := by
      unfold Lexer.moveOn
      dsimp only
      split
      · exact hup.mono (Nat.le_of_eq (Cursor.advance_start _).symm)
      · exact hup.mono (Nat.le_of_eq (Cursor.advance_start _).symm)
    rw [if_neg Bool.false_ne_true]
    unfold Lexer.advance
    dsimp only
    split
    · exact hmoved.report _
    · exact hmoved

/-- Nothing is reported when tokens are finished, and the log does not count. -/
theorem Recent.congr {l' : Lexer} (h : l.Recent cs) (hl : l'.locator = l.locator)
    (hd : l'.diagnostics = l.diagnostics) (hc : l'.cursor = l.cursor) (ha : l'.again = l.again) :
    l'.Recent cs := by
  have hup : ∀ {i}, l.UpTo i → l'.UpTo i := by
    intro i hi
    unfold Lexer.UpTo
    rwa [hl, hd]
  refine ⟨hup ?_, fun hagain hchar => ?_⟩
  · have hplace : l'.frontier l'.again = l.frontier l.again := by
      rw [ha]
      cases l.again <;> simp only [Lexer.frontier, hc]
    rw [hplace]
    exact h.upTo
  · rw [hc] at hchar ⊢
    obtain ⟨hbetween, hstart⟩ := h.behind (ha.symm.trans hagain) hchar
    exact ⟨hbetween, hup hstart⟩

theorem Recent.advanceStep (h : l.Recent cs) (ht : Tracks cs taken l) (hf : l.finished = false) :
    l.advanceStep.Recent cs := by
  obtain ⟨he, -, hstate⟩ := ht.enters hf
  have hstep := step_recent he h.entered
  rw [advanceStep_eq]
  split <;> exact hstep.congr rfl rfl rfl rfl

theorem Recent.run {fuel : Nat} (h : l.Recent cs) (ht : Tracks cs taken l) :
    (l.run fuel).2.Recent cs := by
  fun_induction Lexer.run fuel l with
  | case1 => exact h.congr rfl rfl rfl rfl
  | case2 => exact h
  | case3 => exact h.congr rfl rfl rfl rfl
  | case4 l hready hfinished fuel ih =>
    have hf : l.finished = false := by simpa using hfinished
    exact ih (h.advanceStep ht hf) (ht.advanceStep hf hready)

theorem Recent.pull (h : l.Recent cs) (ht : Tracks cs taken l) : l.pull.2.Recent cs := h.run ht

theorem recent_ofChars (cs : List Char) (locator : Locator) (tracing : Bool) :
    (ofChars cs locator tracing).Recent cs where
  upTo := by simp [Lexer.UpTo, ofChars]
  behind _ hc := by simp [ofChars, Cursor.ofChars] at hc

end Lexer
end TemplateSyntax
