import TemplateSyntax.Proofs.LexerRun

/-! # What the lexer reports

A diagnostic of the lexer is about the markup and stands at an offset of the template, at the position
of that offset, and a gap is the offset of a byte of the template.  Each operation of the lexer checks
the index that it is given, so that this holds of every lexer on whose way no check failed. -/

namespace TemplateSyntax

/-- Whether the cause is found while the tree is built, and not in an embedded text. -/
@[grind =] def Cause.isMarkup : Cause → Bool
  | .invalidDirective _ | .expression _ => false
  | _ => true

/-- Whether the cause is found before units are taken: in the characters of the markup, or while tokens
are put together. -/
@[grind =] def Cause.isSyntactic : Cause → Bool
  | .invalidEndTag _ | .invalidNamespace _ | .invalidDirective _ | .expression _ => false
  | _ => true

theorem Cause.isMarkup_of_isSyntactic {cause : Cause} (h : cause.isSyntactic = true) :
    cause.isMarkup = true := by
  cases cause <;> first | rfl | exact absurd h Bool.false_ne_true

/-- The diagnostic is about the markup, at an offset of the template or at its end. -/
structure Locator.Found (l : Locator) (d : Diagnostic) : Prop where
  markup : d.cause.isMarkup = true
  offset : l.host 0 ≤ d.offset ∧ d.offset ≤ l.host l.index.size
  position : d.position = l.position d.offset

theorem Locator.found_diagnose {l : Locator} {cause : Cause} (hc : cause.isMarkup = true)
    {offset : Nat} (h : l.host 0 ≤ offset ∧ offset ≤ l.host l.index.size) :
    l.Found (l.diagnose cause offset) :=
  ⟨hc, h, rfl⟩

/-- The diagnostics and gaps lie in the template, and the diagnostics are about syntax. -/
structure Locator.Holds (l : Locator) (diagnostics : Array Diagnostic) (gaps : Array Nat) : Prop where
  found : ∀ d ∈ diagnostics, l.Found d
  syntactic : ∀ d ∈ diagnostics, d.cause.isSyntactic = true
  gaps : ∀ g ∈ gaps, ∃ i < l.index.size, g = l.host i

/-- If no check has failed, what is on record lies in the template. -/
def Lexer.Reports (l : Lexer) : Prop := l.breaches = [] → l.locator.Holds l.diagnostics l.gaps

theorem Cursor.inputFault?_isSyntactic {ch : Char} {cause : Cause}
    (h : inputFault? ch = some cause) : cause.isSyntactic = true := by
  unfold inputFault? at h
  repeat' split at h
  all_goals
    first
      | exact Option.some.inj h ▸ rfl
      | simp at h

namespace Lexer

variable {l : Lexer} {s : LexState} {c : Char}

/-! ## Operations that record nothing -/

@[simp, grind =] theorem reports_goto : (l.goto s).Reports ↔ l.Reports := .rfl
@[simp, grind =] theorem reports_reconsume : (l.reconsume s).Reports ↔ l.Reports := .rfl
@[simp, grind =] theorem reports_markHere : l.markHere.Reports ↔ l.Reports := .rfl
@[simp, grind =] theorem reports_startTokenAt (k : TokenKind) (i : Nat) :
    (l.startTokenAt k i).Reports ↔ l.Reports := .rfl
@[simp, grind =] theorem reports_startToken (k : TokenKind) : (l.startToken k).Reports ↔ l.Reports := .rfl
@[simp, grind =] theorem reports_endToken : l.endToken.Reports ↔ l.Reports := .rfl
@[simp, grind =] theorem reports_push (v : String) : (l.push v).Reports ↔ l.Reports := .rfl
@[simp, grind =] theorem reports_pushChar : (l.pushChar c).Reports ↔ l.Reports := .rfl
@[simp, grind =] theorem reports_append (k : TokenKind) (v : String) (i : Nat) :
    (l.append k v i).Reports ↔ l.Reports := .rfl
@[simp, grind =] theorem reports_appendData (k : TokenKind) : (l.appendData k c).Reports ↔ l.Reports := .rfl
@[simp, grind =] theorem reports_appendBlank : (l.appendBlank c).Reports ↔ l.Reports := .rfl
@[simp, grind =] theorem reports_oneCharToken (k : TokenKind) :
    (l.oneCharToken k).Reports ↔ l.Reports := .rfl
@[simp, grind =] theorem reports_startBlank : (l.startBlank c).Reports ↔ l.Reports := .rfl
@[simp, grind =] theorem reports_holdBack : l.holdBack.Reports ↔ l.Reports := .rfl
@[simp, grind =] theorem reports_restoreHeldBack : (l.restoreHeldBack s).Reports ↔ l.Reports := .rfl
@[simp, grind =] theorem reports_promoteHeldBack : l.promoteHeldBack.Reports ↔ l.Reports := .rfl
@[simp, grind =] theorem reports_flushReference (v : String) :
    (l.flushReference v).Reports ↔ l.Reports := .rfl
@[simp, grind =] theorem reports_startReference : (l.startReference s).Reports ↔ l.Reports := .rfl
@[simp, grind =] theorem reports_startInterpolation :
    (l.startInterpolation s).Reports ↔ l.Reports := .rfl
@[simp, grind =] theorem reports_interpolationStart (i : Nat) :
    ({ l with interpolationStart := i } : Lexer).Reports ↔ l.Reports := .rfl
@[simp, grind =] theorem reports_endTagName (v : String) :
    ({ l with endTagName := v } : Lexer).Reports ↔ l.Reports := .rfl
@[simp, grind =] theorem reports_charCode (n : Nat) :
    ({ l with charCode := n } : Lexer).Reports ↔ l.Reports := .rfl

/-! ## Operations that check something -/

/-- Another failed check says nothing of what is on record. -/
theorem Reports.checked (h : l.Reports) (xs : List Breach) :
    ({ l with breaches := xs ++ l.breaches } : Lexer).Reports := fun hb =>
  h (List.append_eq_nil_iff.1 hb).2

@[grind ←] theorem Reports.reportAt (h : l.Reports) {cause : Cause} (hc : cause.isSyntactic = true)
    (index : Nat) : (l.reportAt cause index).Reports := by
  intro hb
  obtain ⟨hindex, hold⟩ := List.append_eq_nil_iff.1 hb
  obtain ⟨hdiagnostics, hsyntactic, hgaps⟩ := h hold
  have hle : index ≤ l.locator.index.size := by simpa using hindex
  refine ⟨fun d hd => ?_, fun d hd => ?_, hgaps⟩
  · rcases Array.mem_push.1 hd with hd | rfl
    · exact hdiagnostics d hd
    · exact Locator.found_diagnose (Cause.isMarkup_of_isSyntactic hc)
        ⟨Nat.add_le_add_left (Nat.zero_le _) _, Nat.add_le_add_left hle _⟩
  · rcases Array.mem_push.1 hd with hd | rfl
    · exact hsyntactic d hd
    · exact hc

@[grind ←] theorem Reports.report (h : l.Reports) {cause : Cause} (hc : cause.isSyntactic = true) :
    (l.report cause).Reports :=
  h.reportAt hc _

@[grind ←] theorem Reports.addGaps (h : l.Reports) (index count : Nat) :
    (l.addGaps index count).Reports := by
  intro hb
  obtain ⟨hindex, hold⟩ := List.append_eq_nil_iff.1 hb
  obtain ⟨hdiagnostics, hsyntactic, hgaps⟩ := h hold
  have hle : index + count ≤ l.locator.index.size := by simpa using hindex
  refine ⟨hdiagnostics, hsyntactic, fun g hg => ?_⟩
  rw [Lexer.addGaps, ← Array.mem_toList_iff, Array.toList_appendList, List.mem_append,
    Array.mem_toList_iff] at hg
  rcases hg with hg | hg
  · exact hgaps g hg
  · obtain ⟨i, hi, rfl⟩ := List.mem_map.1 hg
    have hlt := (List.mem_range'_1.1 hi).2
    exact ⟨i, Nat.lt_of_lt_of_le hlt hle, rfl⟩

@[grind ←] theorem Reports.checkReference (h : l.Reports) (stop : Nat) :
    (l.checkReference stop).Reports :=
  h.checked _

@[grind ←] theorem Reports.flushRaw (h : l.Reports) (stop : Nat) : (l.flushRaw stop).Reports :=
  h.checkReference stop

@[grind ←] theorem Reports.flushDecoded (h : l.Reports) (decoded : String) (stop : Nat) :
    (l.flushDecoded decoded stop).Reports := by
  unfold Lexer.flushDecoded
  dsimp only
  split
  · exact Reports.addGaps (h.checkReference stop) _ _
  · exact h.flushRaw stop

@[grind ←] theorem Reports.skip (h : l.Reports) (n : Nat) : (l.skip n).Reports :=
  h.checked _

@[grind ←] theorem Reports.addDigit (h : l.Reports) (radix digit : Nat) :
    (l.addDigit radix digit).Reports :=
  h.checked _

theorem codeFault?_isSyntactic {n : Nat} {cause : Cause} (h : codeFault? n = some cause) :
    cause.isSyntactic = true := by
  unfold codeFault? at h
  repeat' split at h
  all_goals
    first
      | exact Option.some.inj h ▸ rfl
      | simp at h

@[grind ←] theorem Reports.finishNumericReference (h : l.Reports) (stop : Nat) :
    (l.finishNumericReference stop).Reports := by
  unfold Lexer.finishNumericReference
  dsimp only
  refine Reports.flushDecoded ?_ _ _
  split
  · next cause hcause => exact h.report (codeFault?_isSyntactic hcause)
  · exact h

/-! ## Steps -/

section
variable (h : l.Reports) (c : Option Char)
include h

@[grind ←] theorem onData_reports : (l.onData c).Reports := by
  unfold onData
  (repeat' split) <;> grind

@[grind ←] theorem onRcdata_reports : (l.onRcdata c).Reports := by
  unfold onRcdata
  (repeat' split) <;> grind

@[grind ←] theorem onRawText_reports : (l.onRawText c).Reports := by
  unfold onRawText
  (repeat' split) <;> grind

@[grind ←] theorem onTagOpen_reports : (l.onTagOpen c).Reports := by
  unfold onTagOpen
  (repeat' split) <;> grind

@[grind ←] theorem onEndTagOpen_reports : (l.onEndTagOpen c).Reports := by
  unfold onEndTagOpen
  (repeat' split) <;> grind

@[grind ←] theorem onTagName_reports : (l.onTagName c).Reports := by
  unfold onTagName
  (repeat' split) <;> grind

@[grind ←] theorem onTextLessThanSign_reports (s : LexState) : (l.onTextLessThanSign s c).Reports := by
  unfold onTextLessThanSign
  (repeat' split) <;> grind

@[grind ←] theorem onTextEndTagOpen_reports (s : LexState) : (l.onTextEndTagOpen s c).Reports := by
  unfold onTextEndTagOpen
  (repeat' split) <;> grind

@[grind ←] theorem onTextEndTagName_reports (s : LexState) : (l.onTextEndTagName s c).Reports := by
  unfold onTextEndTagName
  (repeat' split) <;> grind

@[grind ←] theorem onBeforeAttributeName_reports : (l.onBeforeAttributeName c).Reports := by
  unfold onBeforeAttributeName
  (repeat' split) <;> grind

@[grind ←] theorem onAttributeName_reports : (l.onAttributeName c).Reports := by
  unfold onAttributeName
  (repeat' split) <;> grind

@[grind ←] theorem onAfterAttributeName_reports : (l.onAfterAttributeName c).Reports := by
  unfold onAfterAttributeName
  (repeat' split) <;> grind

@[grind ←] theorem onBeforeAttributeValue_reports : (l.onBeforeAttributeValue c).Reports := by
  unfold onBeforeAttributeValue
  (repeat' split) <;> grind

@[grind ←] theorem onAttributeValueQuoted_reports (q : Char) (s : LexState) :
    (l.onAttributeValueQuoted q s c).Reports := by
  unfold onAttributeValueQuoted
  (repeat' split) <;> grind

@[grind ←] theorem onAttributeValueUnquoted_reports : (l.onAttributeValueUnquoted c).Reports := by
  unfold onAttributeValueUnquoted
  (repeat' split) <;> grind

@[grind ←] theorem onAfterAttributeValueQuoted_reports : (l.onAfterAttributeValueQuoted c).Reports := by
  unfold onAfterAttributeValueQuoted
  (repeat' split) <;> grind

@[grind ←] theorem onSelfClosingStartTag_reports : (l.onSelfClosingStartTag c).Reports := by
  unfold onSelfClosingStartTag
  (repeat' split) <;> grind

@[grind ←] theorem onBogusComment_reports : (l.onBogusComment c).Reports := by
  unfold onBogusComment
  (repeat' split) <;> grind

@[grind ←] theorem onMarkupDeclarationOpen_reports : (l.onMarkupDeclarationOpen c).Reports := by
  unfold onMarkupDeclarationOpen
  dsimp only
  generalize "--".toList.isPrefixOf l.cursor.here = dashes
  generalize "[CDATA[".toList.isPrefixOf l.cursor.here = cdata
  have hcause : (if cdata then Cause.cdataInHtmlContent else .incorrectlyOpenedComment).isSyntactic =
      true := by
    cases cdata <;> rfl
  (repeat' split) <;> grind

@[grind ←] theorem onCommentStart_reports : (l.onCommentStart c).Reports := by
  unfold onCommentStart
  (repeat' split) <;> grind

@[grind ←] theorem onCommentStartDash_reports : (l.onCommentStartDash c).Reports := by
  unfold onCommentStartDash
  (repeat' split) <;> grind

@[grind ←] theorem onComment_reports : (l.onComment c).Reports := by
  unfold onComment
  (repeat' split) <;> grind

@[grind ←] theorem onCommentLessThanSign_reports : (l.onCommentLessThanSign c).Reports := by
  unfold onCommentLessThanSign
  (repeat' split) <;> grind

@[grind ←] theorem onCommentLessThanSignBang_reports : (l.onCommentLessThanSignBang c).Reports := by
  unfold onCommentLessThanSignBang
  (repeat' split) <;> grind

@[grind ←] theorem onCommentLessThanSignBangDash_reports : (l.onCommentLessThanSignBangDash c).Reports := by
  unfold onCommentLessThanSignBangDash
  (repeat' split) <;> grind

@[grind ←] theorem onCommentLessThanSignBangDashDash_reports :
    (l.onCommentLessThanSignBangDashDash c).Reports := by
  unfold onCommentLessThanSignBangDashDash
  (repeat' split) <;> grind

@[grind ←] theorem onCommentEndDash_reports : (l.onCommentEndDash c).Reports := by
  unfold onCommentEndDash
  (repeat' split) <;> grind

@[grind ←] theorem onCommentEnd_reports : (l.onCommentEnd c).Reports := by
  unfold onCommentEnd
  (repeat' split) <;> grind

@[grind ←] theorem onCommentEndBang_reports : (l.onCommentEndBang c).Reports := by
  unfold onCommentEndBang
  (repeat' split) <;> grind

@[grind ←] theorem onCdataSection_reports : (l.onCdataSection c).Reports := by
  unfold onCdataSection
  (repeat' split) <;> grind

@[grind ←] theorem onCdataSectionBracket_reports : (l.onCdataSectionBracket c).Reports := by
  unfold onCdataSectionBracket
  (repeat' split) <;> grind

@[grind ←] theorem onCdataSectionEnd_reports : (l.onCdataSectionEnd c).Reports := by
  unfold onCdataSectionEnd
  (repeat' split) <;> grind

@[grind ←] theorem onCharacterReference_reports : (l.onCharacterReference c).Reports := by
  unfold onCharacterReference
  (repeat' split) <;> grind

omit h in
/-- How a reference by name ends, which `onNamedCharacterReference` chooses. -/
theorem flushName_reports (h : l.Reports) (found : NamedReference.Found) (stop : Nat)
    (goesOn : Bool) :
    (if l.returnState.isAttributeValue && !found.terminated && goesOn then l.flushRaw stop
      else if found.terminated then l.flushDecoded found.value stop
      else (l.reportAt .missingSemicolonAfterCharacterReference stop).flushDecoded found.value
        stop).Reports := by
  (repeat' split) <;> grind

omit c in
@[grind ←] theorem onNamedCharacterReference_reports : l.onNamedCharacterReference.Reports := by
  unfold onNamedCharacterReference
  split
  · simpa using h
  · exact (reports_goto).2 (Reports.skip (flushName_reports h _ _ _) _)

@[grind ←] theorem onAmbiguousAmpersand_reports : (l.onAmbiguousAmpersand c).Reports := by
  unfold onAmbiguousAmpersand
  (repeat' split) <;> grind

@[grind ←] theorem onNumericCharacterReference_reports : (l.onNumericCharacterReference c).Reports := by
  unfold onNumericCharacterReference
  (repeat' split) <;> grind

@[grind ←] theorem onNumericReferenceStart_reports (p : Char → Bool) (s : LexState) :
    (l.onNumericReferenceStart p s c).Reports := by
  unfold onNumericReferenceStart
  (repeat' split) <;> grind

@[grind ←] theorem onNumericReferenceDigits_reports (p : Char → Bool) (r : Nat) (s : LexState) :
    (l.onNumericReferenceDigits p r s c).Reports := by
  unfold onNumericReferenceDigits
  (repeat' split) <;> grind

@[grind ←] theorem onInterpolationStart_reports : (l.onInterpolationStart c).Reports := by
  unfold onInterpolationStart
  (repeat' split) <;> grind

@[grind ←] theorem onInterpolationData_reports : (l.onInterpolationData c).Reports := by
  unfold onInterpolationData
  (repeat' split) <;> grind

@[grind ←] theorem onInterpolationEnd_reports : (l.onInterpolationEnd c).Reports := by
  unfold onInterpolationEnd
  (repeat' split) <;> grind

end

@[grind ←] theorem Reports.step (h : l.Reports) : l.step.Reports := by
  unfold Lexer.step
  dsimp only
  split <;> grind

/-! ## Moving on -/

/-- The line feed that is dropped is checked with its gap. -/
theorem Reports.moveOn (h : l.Reports) : l.moveOn.Reports := by
  unfold Lexer.moveOn
  dsimp only
  split
  · exact Reports.addGaps (l := { l with cursor := l.cursor.advance }) h _ _
  · exact h

theorem Reports.advance (h : l.Reports) : l.advance.Reports := by
  unfold Lexer.advance
  dsimp only
  split
  · next cause hcause =>
    obtain ⟨ch, -, hch⟩ := Option.bind_eq_some_iff.1 hcause
    exact h.moveOn.report (Cursor.inputFault?_isSyntactic hch)
  · exact h.moveOn

theorem Reports.enter (h : l.Reports) (s : LexState) : (l.enter s).Reports := by
  unfold Lexer.enter Lexer.traceTo
  split <;> exact h

theorem Reports.advanceStep (h : l.Reports) : l.advanceStep.Reports := by
  have hentered : l.entered.Reports := by
    unfold Lexer.entered
    split
    · exact h
    · exact h.advance
  rw [advanceStep_eq]
  split <;> exact hentered.step

theorem Reports.run (h : l.Reports) (fuel : Nat) : (l.run fuel).2.Reports := by
  fun_induction Lexer.run fuel l with
  | case1 => exact h
  | case2 => exact h
  | case3 => exact fun hb => absurd hb (List.cons_ne_nil _ _)
  | case4 fuel l hready hfinished ih => exact ih h.advanceStep

theorem Reports.pull (h : l.Reports) : l.pull.2.Reports :=
  h.run _

/-- A lexer in front of a text has nothing on record. -/
theorem reports_ofChars (cs : List Char) (locator : Locator) (tracing : Bool) :
    (ofChars cs locator tracing).Reports := fun _ =>
  ⟨fun _ hd => absurd hd (Array.not_mem_empty _), fun _ hd => absurd hd (Array.not_mem_empty _),
    fun _ hg => absurd hg (Array.not_mem_empty _)⟩

end Lexer
end TemplateSyntax
