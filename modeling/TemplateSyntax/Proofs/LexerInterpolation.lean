import TemplateSyntax.Proofs.LexerComment
import TemplateSyntax.Proofs.LexerReference
import TemplateSyntax.Proofs.LexerTag

/-! # Steps in interpolations, and the steps together

Between double braces every character belongs to a token, so that the tokens there decode the text
without holes. -/

namespace TemplateSyntax
namespace Lexer

open Text (byteLength From Between)

variable {cs : List Char} {taken : List Token} {l : Lexer}

theorem stage_outer {r : Lexer} {s : LexState} {here : Bool} (hs : s = .data ∨ s = .rcdata)
    (hb : Builds cs r.locator r.HasGap taken r.buffer .content (r.frontier here)) :
    r.Stage cs taken here s := by
  rcases hs with rfl | rfl <;> exact .inl hb

theorem textKind_outer {s : LexState} (hs : s = .data ∨ s = .rcdata) :
    Mode.content.after s.textKind = some .content ∧
      s.textKind ≠ .literal ∧ s.textKind ≠ .identifier := by
  rcases hs with rfl | rfl <;> exact ⟨rfl, by decide⟩

theorem onInterpolationStart_sound (h : Enters cs taken l .interpolationStart) :
    Sound cs taken (l.onInterpolationStart l.cursor.char) := by
  obtain ⟨ho, hm, hb⟩ : (l.outerState = .data ∨ l.outerState = .rcdata) ∧
    Between cs l.mark ['{'] l.cursor.start ∧
      Builds cs l.locator l.HasGap taken l.buffer .content l.mark := h.stage
  unfold onInterpolationStart
  split
  · next hc =>
    have hopen := hb.openMustache h.steady.size (s := "\x7b\x7b") (Nat.le_refl _)
      (hm.append (h.steady.on.between hc (by decide)))
    have hsize := Nat.le_trans hm.le h.steady.on.start_le_size
    exact .takes h.steady h.quiet (Cursor.char_ne_none hc) ⟨⟨ho, hsize⟩, hopen⟩
  · obtain ⟨hk, hk'⟩ := textKind_outer ho
    exact .repeats h.steady h.quiet.2 rfl
      (stage_outer ho (appendMarked_builds h hk hk' hm.le hb "\x7b"))

theorem onInterpolationData_sound (h : Enters cs taken l .interpolationData) :
    Sound cs taken (l.onInterpolationData l.cursor.char) := by
  obtain ⟨ho, hb⟩ : Surrounded cs l.outerState l.interpolationStart ∧
    BuildsMustache cs l.locator l.HasGap taken l.buffer l.cursor.start := h.stage
  unfold onInterpolationData
  split
  · next hc =>
    exact .takes h.steady h.quiet (Cursor.char_ne_none hc)
      ⟨ho, h.steady.on.between hc (by decide),
        fun x hx _ => h.steady.noGap hc (by decide) hx, hb⟩
  · next hc => exact startReference_sound h hc hb fun _ => ho
  · next hc =>
    have hrest : ((l.reportAt .missingInterpolationEnd l.interpolationStart).reconsume
        l.outerState).Stage cs taken true l.outerState := by
      rcases ho.outer with heq | heq <;> rw [heq] <;> exact .inr ⟨rfl, hc, hb⟩
    exact .repeats (h.steady.check ho.start_le) h.quiet.2 rfl hrest
  · next c _ _ hc =>
    obtain ⟨ps, hps, hv, -⟩ := h.steady.on.decodes hc h.steady.ahead
    have hd : Decoded cs l.HasGap l.cursor.start (String.singleton c) l.cursor.index :=
      ⟨ps, hps, by rw [hv, String.toList_singleton]⟩
    have hk : (if CharClass.isBlank c then TokenKind.whitespace else .text) = .text ∨
        (if CharClass.isBlank c then TokenKind.whitespace else .text) = .whitespace := by
      split
      · exact .inr rfl
      · exact .inl rfl
    exact .takes h.steady h.quiet (Cursor.char_ne_none hc) ⟨ho, hb.append h.steady.size hd hk⟩

theorem onInterpolationEnd_sound (h : Enters cs taken l .interpolationEnd) :
    Sound cs taken (l.onInterpolationEnd l.cursor.char) := by
  obtain ⟨ho, hm, hg, hb⟩ : Surrounded cs l.outerState l.interpolationStart ∧
    Between cs l.mark ['}'] l.cursor.start ∧
      (∀ x, l.mark ≤ x → x ≤ l.cursor.start → ¬ l.HasGap x) ∧
      BuildsMustache cs l.locator l.HasGap taken l.buffer l.mark := h.stage
  unfold onInterpolationEnd
  split
  · next hc =>
    have hclose := hb.close h.steady.size (s := "\x7d\x7d")
      (hm.append (h.steady.on.between hc (by decide)))
    exact .takes h.steady h.quiet (Cursor.char_ne_none hc) (stage_outer ho.outer hclose)
  · have hd : Decoded cs l.HasGap l.mark "\x7d" l.cursor.start :=
      ⟨_, .copies hm (List.forall_mem_singleton.2 (by decide)) hg, by simp⟩
    exact .repeats h.steady h.quiet.2 rfl ⟨ho, hb.append h.steady.size hd (.inl rfl)⟩

/-- A step in any state takes what was read to what is read behind it. -/
theorem step_sound (h : Enters cs taken l l.state) : Sound cs taken l.step := by
  unfold step
  dsimp only
  generalize l.state = s at h
  have hs := h.stage
  cases s with
  | data => exact onData_sound h
  | rcdata => exact onRcdata_sound h
  | rawText => exact onRawText_sound h
  | tagOpen => exact onTagOpen_sound h
  | endTagOpen => exact onEndTagOpen_sound h
  | tagName => exact onTagName_sound h
  | rcdataLessThanSign => exact onTextLessThanSign_sound (.inl rfl) h hs.1 hs.2
  | rcdataEndTagOpen => exact onTextEndTagOpen_sound (.inl rfl) h hs.1 hs.2
  | rcdataEndTagName => exact onTextEndTagName_sound (.inl rfl) h hs.1 hs.2
  | rawTextLessThanSign => exact onTextLessThanSign_sound (.inr rfl) h hs.1 hs.2
  | rawTextEndTagOpen => exact onTextEndTagOpen_sound (.inr rfl) h hs.1 hs.2
  | rawTextEndTagName => exact onTextEndTagName_sound (.inr rfl) h hs.1 hs.2
  | beforeAttributeName => exact onBeforeAttributeName_sound h
  | attributeName => exact onAttributeName_sound h
  | afterAttributeName => exact onAfterAttributeName_sound h
  | beforeAttributeValue => exact onBeforeAttributeValue_sound h
  | attributeValueDoubleQuoted => exact onAttributeValueQuoted_sound h (.inl ⟨rfl, rfl⟩) hs
  | attributeValueSingleQuoted => exact onAttributeValueQuoted_sound h (.inr ⟨rfl, rfl⟩) hs
  | attributeValueUnquoted => exact onAttributeValueUnquoted_sound h
  | afterAttributeValueQuoted => exact onAfterAttributeValueQuoted_sound h
  | selfClosingStartTag => exact onSelfClosingStartTag_sound h
  | bogusComment => exact onBogusComment_sound h hs
  | markupDeclarationOpen => exact onMarkupDeclarationOpen_sound h
  | commentStart => exact onCommentStart_sound h hs
  | commentStartDash => exact onCommentStartDash_sound h hs
  | comment => exact onComment_sound h hs
  | commentLessThanSign => exact onCommentLessThanSign_sound h hs
  | commentLessThanSignBang => exact onCommentLessThanSignBang_sound h hs
  | commentLessThanSignBangDash => exact onCommentLessThanSignBangDash_sound h hs
  | commentLessThanSignBangDashDash => exact onCommentLessThanSignBangDashDash_sound h hs
  | commentEndDash => exact onCommentEndDash_sound h hs
  | commentEnd => exact onCommentEnd_sound h hs
  | commentEndBang => exact onCommentEndBang_sound h hs
  | cdataSection => exact onCdataSection_sound h hs
  | cdataSectionBracket => exact onCdataSectionBracket_sound h hs
  | cdataSectionEnd => exact onCdataSectionEnd_sound h hs
  | characterReference => exact onCharacterReference_sound h
  | namedCharacterReference => exact onNamedCharacterReference_sound h
  | ambiguousAmpersand => exact onAmbiguousAmpersand_sound h
  | numericCharacterReference => exact onNumericCharacterReference_sound h
  | hexadecimalCharacterReferenceStart =>
    obtain ⟨x, hx, hr, hcode⟩ := hs
    exact onNumericReferenceStart_sound (hexadecimal_numeral hx) h hr hcode
  | decimalCharacterReferenceStart => exact onNumericReferenceStart_sound decimal_numeral h hs.1 hs.2
  | hexadecimalCharacterReference =>
    obtain ⟨x, ds, hx, hr, hd⟩ := hs
    exact onNumericReferenceDigits_sound (hexadecimal_numeral hx) h hr hd
  | decimalCharacterReference =>
    obtain ⟨ds, hr, hd⟩ := hs
    exact onNumericReferenceDigits_sound decimal_numeral h hr hd
  | interpolationStart => exact onInterpolationStart_sound h
  | interpolationData => exact onInterpolationData_sound h
  | interpolationEnd => exact onInterpolationEnd_sound h

end Lexer
end TemplateSyntax
