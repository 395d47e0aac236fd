import TemplateSyntax.Proofs.Relocation

/-! # Steps on relocated markup

A step does the same in both readings: it looks at the current character and at fields that are known
in its state, and it sets the fields that the next state needs. -/

namespace TemplateSyntax

open Text (byteLength From Between)

/-- What a state needs that a reference may stand in. -/
theorem LexState.mem_needs_of_hasReferences {s : LexState} {x : Field}
    (hs : s.hasReferences = true) (hx : x ∈ s.needs) :
    (x = .startName ∧ s = .rcdata) ∨ (x = .outer ∧ s = .interpolationData) ∨
      (x = .opening ∧ s = .interpolationData) := by
  cases s <;> simp [hasReferences, needs] at hs hx
  · exact .inl ⟨hx, rfl⟩
  · exact hx.elim (fun hx => .inr (.inl ⟨hx, rfl⟩)) fun hx => .inr (.inr ⟨hx, rfl⟩)

namespace Lexer

variable {r : Relocation} {seen : Prop} {known : List Field} {l l' : Lexer} {s : LexState}
  {cs : List Char} {taken : List Token}

/-- The lexers of two readings behind a step that may go on with the current character. -/
def InStep (r : Relocation) (seen : Prop) (l l' : Lexer) : Prop :=
  l.Moved r seen (.here :: l.state.needs) l'

namespace Moved

theorem inStep (h : l.Moved r seen known l') (hs : l.state = s)
    (hk : ∀ x ∈ Field.here :: s.needs, x ∈ known) : InStep r seen l l' := by
  subst hs
  exact h.weaken hk

theorem goes (h : l.Moved r seen known l') (hk : ∀ x ∈ Field.here :: s.needs, x ∈ known) :
    InStep r seen (l.goto s) (l'.goto s) :=
  (h.goto s).inStep rfl hk

theorem stays (h : l.Moved r seen known l') (hk : ∀ x ∈ Field.here :: s.needs, x ∈ known) :
    InStep r seen (l.reconsume s) (l'.reconsume s) :=
  (h.reconsume s).inStep rfl hk

/-- What the state needs that a reference stands in is still known behind the reference. -/
theorem returning (h : l.Moved r seen known l') (hh : .here ∈ known) :
    l.Moved r seen (.here :: l.returnState.needs) l' := by
  refine h.reknow (List.forall_mem_cons.2 ⟨h.known _ hh, fun x hx => ?_⟩) fun hx => ?_
  · rcases LexState.mem_needs_of_hasReferences h.returns hx with ⟨rfl, -⟩ | ⟨rfl, hi⟩ | ⟨rfl, hi⟩
    · trivial
    · exact (h.inside hi).1
    · exact (h.inside hi).2
  · have hmem : .startName ∈ l.returnState.needs := (List.mem_cons.1 hx).resolve_left nofun
    rcases LexState.mem_needs_of_hasReferences h.returns hmem with ⟨-, hr⟩ | ⟨hne, -⟩ | ⟨hne, -⟩
    · exact .inr (.inr (.inl hr))
    · exact absurd hne nofun
    · exact absurd hne nofun

/-- Going back to the state that a reference stands in. -/
theorem goesBack (h : l.Moved r seen known l') (hh : .here ∈ known)
    (hs : l.returnState = s) : InStep r seen (l.goto s) (l'.goto s) := by
  subst hs
  exact (h.returning hh).goes fun x hx => hx

theorem staysBack (h : l.Moved r seen known l') (hh : .here ∈ known)
    (hs : l.returnState = s) : InStep r seen (l.reconsume s) (l'.reconsume s) := by
  subst hs
  exact (h.returning hh).stays fun x hx => hx

theorem leaving (h : l.Moved r seen known l') (hh : .here ∈ known) :
    l.Moved r seen (.here :: l.outerState.needs) l' := by
  rcases h.outside with ho | ho
  · rw [ho]
    exact h.weaken (List.forall_mem_singleton.2 hh)
  · rw [ho]
    refine h.reknow ?_ fun _ => .inr (.inr (.inr ho))
    exact List.forall_mem_cons.2 ⟨h.known _ hh, List.forall_mem_singleton.2 trivial⟩

/-- Going back to the state that an interpolation stands in. -/
theorem goesOutside (h : l.Moved r seen known l') (hh : .here ∈ known)
    (hs : l.outerState = s) : InStep r seen (l.goto s) (l'.goto s) := by
  subst hs
  exact (h.leaving hh).goes fun x hx => hx

theorem staysOutside (h : l.Moved r seen known l') (hh : .here ∈ known)
    (hs : l.outerState = s) : InStep r seen (l.reconsume s) (l'.reconsume s) := by
  subst hs
  exact (h.leaving hh).stays fun x hx => hx

/-- A reference is read with what the state needs that it stands in. -/
theorem refers (h : l.Moved r seen (.here :: s.needs) l') (hs : s.hasReferences = true) :
    InStep r seen (l.startReference s) (l'.startReference s) := by
  have hstart := h.startReference (List.mem_cons_self ..) hs ?_ ?_
  · exact hstart.inStep rfl <| List.forall_mem_cons.2
      ⟨List.mem_cons_of_mem _ (List.mem_cons_self ..),
        List.forall_mem_singleton.2 (List.mem_cons_self ..)⟩
  · rintro rfl
    decide
  · rintro rfl
    decide

end Moved

/-! ## Content -/

theorem onData_moved (h : l.Moved r seen (.here :: LexState.data.needs) l') (c : Option Char) :
    InStep r seen (l.onData c) (l'.onData c) := by
  unfold onData
  split
  · exact h.goes (by decide)
  · exact (h.markHere (by decide)).goes (by decide)
  · exact h.refers rfl
  · rw [h.interpolating]
    split
    · have hstart := h.startInterpolation (s := .data) (by decide) (.inl rfl) nofun
      exact hstart.inStep (s := .interpolationStart) rfl (by decide)
    · exact (h.appendData (by decide) _ _).goes (by decide)
  · exact (h.appendData (by decide) _ _).goes (by decide)

theorem onRcdata_moved (h : l.Moved r seen (.here :: LexState.rcdata.needs) l') (c : Option Char) :
    InStep r seen (l.onRcdata c) (l'.onRcdata c) := by
  unfold onRcdata
  split
  · exact h.goes (by decide)
  · exact (h.markHere (by decide)).goes (by decide)
  · exact h.refers rfl
  · rw [h.interpolating]
    split
    · have hstart := h.startInterpolation (s := .rcdata) (by decide) (.inr rfl) fun _ => by decide
      exact hstart.inStep (s := .interpolationStart) rfl (by decide)
    · exact (h.appendData (by decide) _ _).goes (by decide)
  · exact (h.appendData (by decide) _ _).goes (by decide)

theorem onRawText_moved (h : l.Moved r seen (.here :: LexState.rawText.needs) l')
    (c : Option Char) : InStep r seen (l.onRawText c) (l'.onRawText c) := by
  unfold onRawText
  split
  · exact h.goes (by decide)
  · exact (h.markHere (by decide)).goes (by decide)
  · exact (h.appendData (by decide) _ _).goes (by decide)

theorem onTagOpen_moved (h : l.Moved r seen (.here :: LexState.tagOpen.needs) l')
    (c : Option Char) : InStep r seen (l.onTagOpen c) (l'.onTagOpen c) := by
  have hm : l'.mark = r.index + l.mark := h.known .mark (by decide)
  unfold onTagOpen
  split
  · exact h.goes (by decide)
  · exact h.goes (by decide)
  · exact ((h.report (by decide) _).startTokenAt _ hm).stays (by decide)
  · split
    · exact (h.startTokenAt _ hm).stays (by decide)
    · exact ((h.report (by decide) _).append _ _ hm).stays (by decide)
  · exact ((h.report (by decide) _).append _ _ hm).stays (by decide)

theorem onEndTagOpen_moved (h : l.Moved r seen (.here :: LexState.endTagOpen.needs) l')
    (c : Option Char) : InStep r seen (l.onEndTagOpen c) (l'.onEndTagOpen c) := by
  have hm : l'.mark = r.index + l.mark := h.known .mark (by decide)
  unfold onEndTagOpen
  split
  · exact (h.report (by decide) _).goes (by decide)
  · split
    · exact (h.startTokenAt _ hm).stays (by decide)
    · exact ((h.report (by decide) _).startTokenAt _ hm).stays (by decide)
  · exact ((h.report (by decide) _).append _ _ hm).stays (by decide)

theorem onTagName_moved (h : l.Moved r seen (.here :: LexState.tagName.needs) l')
    (c : Option Char) : InStep r seen (l.onTagName c) (l'.onTagName c) := by
  unfold onTagName
  split
  · exact (h.markHere (by decide)).goes (by decide)
  · exact (h.oneCharToken (by decide) _).goes (by decide)
  · exact (h.report (by decide) _).goes (by decide)
  · split
    · exact (h.startBlank (by decide) _).goes (by decide)
    · exact (h.push _).goes (by decide)

/-! ## End tags in text without tags -/

theorem onTextLessThanSign_moved (hs : IsTextState s)
    (h : l.Moved r seen [.here, .mark, .startName] l') (c : Option Char) :
    InStep r seen (l.onTextLessThanSign s c) (l'.onTextLessThanSign s c) := by
  have hm : l'.mark = r.index + l.mark := h.known .mark (by decide)
  unfold onTextLessThanSign
  rcases hs with rfl | rfl
  all_goals
    split
    · exact h.holdBack.goes (by decide)
    · exact (h.append _ _ hm).stays (by decide)

theorem restoreHeldBack_moved (hs : IsTextState s)
    (h : l.Moved r seen [.here, .mark, .endName, .startName] l') :
    InStep r seen ((l.restoreHeldBack s).reconsume s) ((l'.restoreHeldBack s).reconsume s) := by
  have hrestore := h.restoreHeldBack (by decide) (by decide) s
  rcases hs with rfl | rfl
  · exact hrestore.stays (by decide)
  · exact hrestore.stays (by decide)

theorem onTextEndTagOpen_moved (hs : IsTextState s)
    (h : l.Moved r seen [.here, .mark, .endName, .startName] l') (c : Option Char) :
    InStep r seen (l.onTextEndTagOpen s c) (l'.onTextEndTagOpen s c) := by
  unfold onTextEndTagOpen
  split
  · split
    · rcases hs with rfl | rfl
      · exact h.stays (by decide)
      · exact h.stays (by decide)
    · exact restoreHeldBack_moved hs h
  · exact restoreHeldBack_moved hs h

theorem onTextEndTagName_moved (hs : IsTextState s)
    (h : l.Moved r seen [.here, .mark, .endName, .startName] l') (c : Option Char) :
    InStep r seen (l.onTextEndTagName s c) (l'.onTextEndTagName s c) := by
  have hpromote := h.promoteHeldBack (by decide) (by decide)
  have hname : l'.endTagName = l.endTagName := h.known .endName (by decide)
  unfold onTextEndTagName
  rw [h.isAppropriateEndTag (by decide) (by decide)]
  split
  · next c =>
    split
    · exact (hpromote.startBlank (by decide) _).goes (by decide)
    split
    · exact (hpromote.markHere (by decide)).goes (by decide)
    split
    · exact (hpromote.oneCharToken (by decide) _).goes (by decide)
    split
    · have hpush : ({ l with endTagName := l.endTagName.push c } : Lexer).Moved r seen
          [.here, .mark, .endName, .startName] { l' with endTagName := l'.endTagName.push c } :=
        { h with
          known := fun x hx => by
            cases x with
            | endName => exact congrArg (·.push c) hname
            | _ => exact h.known _ hx }
      rcases hs with rfl | rfl
      · exact hpush.goes (by decide)
      · exact hpush.goes (by decide)
    · exact restoreHeldBack_moved hs h
  · exact restoreHeldBack_moved hs h

/-! ## Attributes -/

theorem onBeforeAttributeName_moved
    (h : l.Moved r seen (.here :: LexState.beforeAttributeName.needs) l') (c : Option Char) :
    InStep r seen (l.onBeforeAttributeName c) (l'.onBeforeAttributeName c) := by
  unfold onBeforeAttributeName
  split
  · exact h.stays (by decide)
  · exact h.stays (by decide)
  · exact h.stays (by decide)
  · exact (((h.report (by decide) _).startToken (by decide) _).push _).goes (by decide)
  · split
    · exact (h.appendBlank (by decide) _).goes (by decide)
    · exact (h.startToken (by decide) _).stays (by decide)

theorem onAttributeName_moved (h : l.Moved r seen (.here :: LexState.attributeName.needs) l')
    (c : Option Char) : InStep r seen (l.onAttributeName c) (l'.onAttributeName c) := by
  unfold onAttributeName
  split
  · exact h.stays (by decide)
  · exact h.stays (by decide)
  · exact h.stays (by decide)
  · exact (h.oneCharToken (by decide) _).goes (by decide)
  · split
    · exact h.stays (by decide)
    split
    · exact ((h.report (by decide) _).push _).goes (by decide)
    · exact (h.push _).goes (by decide)

theorem onAfterAttributeName_moved
    (h : l.Moved r seen (.here :: LexState.afterAttributeName.needs) l') (c : Option Char) :
    InStep r seen (l.onAfterAttributeName c) (l'.onAfterAttributeName c) := by
  unfold onAfterAttributeName
  split
  · exact (h.markHere (by decide)).goes (by decide)
  · exact (h.oneCharToken (by decide) _).goes (by decide)
  · exact (h.oneCharToken (by decide) _).goes (by decide)
  · exact (h.report (by decide) _).goes (by decide)
  · split
    · exact (h.appendBlank (by decide) _).goes (by decide)
    · exact (h.startToken (by decide) _).stays (by decide)

theorem onBeforeAttributeValue_moved
    (h : l.Moved r seen (.here :: LexState.beforeAttributeValue.needs) l') (c : Option Char) :
    InStep r seen (l.onBeforeAttributeValue c) (l'.onBeforeAttributeValue c) := by
  unfold onBeforeAttributeValue
  split
  · exact (h.startToken (by decide) _).goes (by decide)
  · exact (h.startToken (by decide) _).goes (by decide)
  · exact ((h.report (by decide) _).oneCharToken (by decide) _).goes (by decide)
  · exact h.stays (by decide)
  · split
    · exact (h.appendBlank (by decide) _).goes (by decide)
    · exact (h.startToken (by decide) _).stays (by decide)

theorem onAttributeValueQuoted_moved {quote : Char} (hs : s.hasReferences = true)
    (h : l.Moved r seen (.here :: s.needs) l') (c : Option Char) :
    InStep r seen (l.onAttributeValueQuoted quote s c) (l'.onAttributeValueQuoted quote s c) := by
  unfold onAttributeValueQuoted
  split
  · exact (h.report (List.mem_cons_self ..) _).goes
      (List.forall_mem_singleton.2 (List.mem_cons_self ..))
  · split
    · exact h.endToken.goes (List.forall_mem_singleton.2 (List.mem_cons_self ..))
    split
    · exact h.refers hs
    · exact (h.push _).goes fun x hx => hx

theorem onAttributeValueUnquoted_moved
    (h : l.Moved r seen (.here :: LexState.attributeValueUnquoted.needs) l') (c : Option Char) :
    InStep r seen (l.onAttributeValueUnquoted c) (l'.onAttributeValueUnquoted c) := by
  unfold onAttributeValueUnquoted
  split
  · exact h.refers rfl
  · exact (h.oneCharToken (by decide) _).goes (by decide)
  · exact (h.report (by decide) _).goes (by decide)
  · split
    · exact (h.startBlank (by decide) _).goes (by decide)
    split
    · exact ((h.report (by decide) _).push _).goes (by decide)
    · exact (h.push _).goes (by decide)

theorem onAfterAttributeValueQuoted_moved
    (h : l.Moved r seen (.here :: LexState.afterAttributeValueQuoted.needs) l')
    (c : Option Char) :
    InStep r seen (l.onAfterAttributeValueQuoted c) (l'.onAfterAttributeValueQuoted c) := by
  unfold onAfterAttributeValueQuoted
  split
  · exact (h.markHere (by decide)).goes (by decide)
  · exact (h.oneCharToken (by decide) _).goes (by decide)
  · exact (h.report (by decide) _).goes (by decide)
  · split
    · exact (h.startBlank (by decide) _).goes (by decide)
    · exact (h.report (by decide) _).stays (by decide)

theorem onSelfClosingStartTag_moved
    (h : l.Moved r seen (.here :: LexState.selfClosingStartTag.needs) l') (c : Option Char) :
    InStep r seen (l.onSelfClosingStartTag c) (l'.onSelfClosingStartTag c) := by
  unfold onSelfClosingStartTag
  split
  · exact ((h.startTokenAt _ (h.known .mark (by decide))).endToken).goes (by decide)
  · exact (h.report (by decide) _).goes (by decide)
  · exact (h.report (by decide) _).stays (by decide)

/-! ## Comments and CDATA sections -/

theorem onBogusComment_moved (h : l.Moved r seen (.here :: LexState.bogusComment.needs) l')
    (c : Option Char) : InStep r seen (l.onBogusComment c) (l'.onBogusComment c) := by
  unfold onBogusComment
  split
  · exact h.endToken.goes (by decide)
  · exact h.goes (by decide)
  · exact (h.push _).goes (by decide)

theorem onMarkupDeclarationOpen_moved
    (h : l.Moved r seen (.here :: LexState.markupDeclarationOpen.needs) l') (c : Option Char) :
    InStep r seen (l.onMarkupDeclarationOpen c) (l'.onMarkupDeclarationOpen c) := by
  have hm : l'.mark = r.index + l.mark := h.known .mark (by decide)
  obtain ⟨hhere, -, -, hcloses⟩ := h.known .here (by decide)
  unfold onMarkupDeclarationOpen
  dsimp only
  rw [hhere, hcloses.isPrefixOf_append (by decide), hcloses.isPrefixOf_append (by decide), h.ns]
  split
  · next hdashes =>
    have hskip := h.skip (n := 2) (by decide) (List.isPrefixOf_iff_prefix.1 hdashes).length_le
    exact (hskip.startTokenAt _ hm).goes (by decide)
  split
  · next hcdata =>
    simp only [Bool.and_eq_true] at hcdata
    have hskip := h.skip (n := 7) (by decide) (List.isPrefixOf_iff_prefix.1 hcdata.1).length_le
    exact (hskip.startTokenAt _ hm).goes (by decide)
  · have hreport := (h.report (by decide)
      (if "[CDATA[".toList.isPrefixOf l.cursor.here = true then Cause.cdataInHtmlContent
        else .incorrectlyOpenedComment)).startTokenAt .bogusComment hm
    split
    · exact hreport.goes (by decide)
    · exact hreport.stays (by decide)

theorem onCommentStart_moved (h : l.Moved r seen (.here :: LexState.commentStart.needs) l')
    (c : Option Char) : InStep r seen (l.onCommentStart c) (l'.onCommentStart c) := by
  unfold onCommentStart
  split
  · exact h.goes (by decide)
  · exact (h.report (by decide) _).endToken.goes (by decide)
  · exact h.stays (by decide)

theorem onCommentStartDash_moved
    (h : l.Moved r seen (.here :: LexState.commentStartDash.needs) l') (c : Option Char) :
    InStep r seen (l.onCommentStartDash c) (l'.onCommentStartDash c) := by
  unfold onCommentStartDash
  split
  · exact h.goes (by decide)
  · exact (h.report (by decide) _).endToken.goes (by decide)
  · exact (h.report (by decide) _).goes (by decide)
  · exact (h.push _).stays (by decide)

theorem onComment_moved (h : l.Moved r seen (.here :: LexState.comment.needs) l')
    (c : Option Char) : InStep r seen (l.onComment c) (l'.onComment c) := by
  unfold onComment
  split
  · exact (h.push _).goes (by decide)
  · exact h.goes (by decide)
  · exact (h.report (by decide) _).goes (by decide)
  · exact (h.push _).goes (by decide)

theorem onCommentLessThanSign_moved
    (h : l.Moved r seen (.here :: LexState.commentLessThanSign.needs) l') (c : Option Char) :
    InStep r seen (l.onCommentLessThanSign c) (l'.onCommentLessThanSign c) := by
  unfold onCommentLessThanSign
  split
  · exact (h.push _).goes (by decide)
  · exact (h.push _).goes (by decide)
  · exact h.stays (by decide)

theorem onCommentLessThanSignBang_moved
    (h : l.Moved r seen (.here :: LexState.commentLessThanSignBang.needs) l') (c : Option Char) :
    InStep r seen (l.onCommentLessThanSignBang c) (l'.onCommentLessThanSignBang c) := by
  unfold onCommentLessThanSignBang
  split
  · exact h.goes (by decide)
  · exact h.stays (by decide)

theorem onCommentLessThanSignBangDash_moved
    (h : l.Moved r seen (.here :: LexState.commentLessThanSignBangDash.needs) l')
    (c : Option Char) :
    InStep r seen (l.onCommentLessThanSignBangDash c) (l'.onCommentLessThanSignBangDash c) := by
  unfold onCommentLessThanSignBangDash
  split
  · exact h.goes (by decide)
  · exact h.stays (by decide)

theorem onCommentLessThanSignBangDashDash_moved
    (h : l.Moved r seen (.here :: LexState.commentLessThanSignBangDashDash.needs) l')
    (c : Option Char) :
    InStep r seen (l.onCommentLessThanSignBangDashDash c)
      (l'.onCommentLessThanSignBangDashDash c) := by
  unfold onCommentLessThanSignBangDashDash
  split
  · exact h.stays (by decide)
  · exact h.stays (by decide)
  · exact (h.report (by decide) _).stays (by decide)

theorem onCommentEndDash_moved (h : l.Moved r seen (.here :: LexState.commentEndDash.needs) l')
    (c : Option Char) : InStep r seen (l.onCommentEndDash c) (l'.onCommentEndDash c) := by
  unfold onCommentEndDash
  split
  · exact h.goes (by decide)
  · exact (h.report (by decide) _).goes (by decide)
  · exact (h.push _).stays (by decide)

theorem onCommentEnd_moved (h : l.Moved r seen (.here :: LexState.commentEnd.needs) l')
    (c : Option Char) : InStep r seen (l.onCommentEnd c) (l'.onCommentEnd c) := by
  unfold onCommentEnd
  split
  · exact h.endToken.goes (by decide)
  · exact h.goes (by decide)
  · exact (h.push _).goes (by decide)
  · exact (h.report (by decide) _).goes (by decide)
  · exact (h.push _).stays (by decide)

theorem onCommentEndBang_moved (h : l.Moved r seen (.here :: LexState.commentEndBang.needs) l')
    (c : Option Char) : InStep r seen (l.onCommentEndBang c) (l'.onCommentEndBang c) := by
  unfold onCommentEndBang
  split
  · exact (h.push _).goes (by decide)
  · exact (h.report (by decide) _).endToken.goes (by decide)
  · exact (h.report (by decide) _).goes (by decide)
  · exact (h.push _).stays (by decide)

theorem onCdataSection_moved (h : l.Moved r seen (.here :: LexState.cdataSection.needs) l')
    (c : Option Char) : InStep r seen (l.onCdataSection c) (l'.onCdataSection c) := by
  unfold onCdataSection
  split
  · exact h.goes (by decide)
  · exact (h.report (by decide) _).goes (by decide)
  · exact (h.push _).goes (by decide)

theorem onCdataSectionBracket_moved
    (h : l.Moved r seen (.here :: LexState.cdataSectionBracket.needs) l') (c : Option Char) :
    InStep r seen (l.onCdataSectionBracket c) (l'.onCdataSectionBracket c) := by
  unfold onCdataSectionBracket
  split
  · exact h.goes (by decide)
  · exact (h.push _).stays (by decide)

theorem onCdataSectionEnd_moved
    (h : l.Moved r seen (.here :: LexState.cdataSectionEnd.needs) l') (c : Option Char) :
    InStep r seen (l.onCdataSectionEnd c) (l'.onCdataSectionEnd c) := by
  unfold onCdataSectionEnd
  split
  · exact (h.push _).goes (by decide)
  · exact h.endToken.goes (by decide)
  · exact (h.push _).stays (by decide)

/-! ## Character references -/

/-- The text of a reference that stands in the text is known up to its end. -/
theorem InReference.length_le {raw : List Char} {f : Nat} (hr : l.InReference cs taken raw f) :
    f - l.refStart ≤ l.refText.length := by
  obtain ⟨heq, post, hp⟩ := hr.between
  rw [hr.text.unique hp, heq, byteLength_of_isReferenceChar hr.chars, List.length_append]
  omega

theorem flushDecoded_returnState (l : Lexer) (s : String) (stop : Nat) :
    (l.flushDecoded s stop).returnState = l.returnState := by
  unfold flushDecoded
  dsimp only
  split <;> rfl

theorem flushDecoded_cursor (l : Lexer) (s : String) (stop : Nat) :
    (l.flushDecoded s stop).cursor = l.cursor := by
  unfold flushDecoded
  dsimp only
  split <;> rfl

theorem onCharacterReference_moved
    (h : l.Moved r seen (.here :: LexState.characterReference.needs) l') (c : Option Char) :
    InStep r seen (l.onCharacterReference c) (l'.onCharacterReference c) := by
  have hret : l'.returnState = l.returnState := (h.known .reference (by decide)).1
  have hflush := h.flushReference (by decide) "&"
  unfold onCharacterReference
  rw [hret]
  split
  · exact h.goes (by decide)
  · split
    · exact h.stays (by decide)
    · exact hflush.staysBack (by decide) rfl
  · exact hflush.staysBack (by decide) rfl

/-- A name is flushed as it is or decoded, with or without a diagnostic. -/
theorem flushName_moved (h : l.Moved r seen [.here, .reference] l')
    (found : NamedReference.Found) (goesOn : Bool) {stop stop' : Nat}
    (hstop : stop' = r.index + stop) (hlen : stop - l.refStart ≤ l.refText.length)
    (hle : found.length ≤ l.cursor.here.length) :
    InStep r seen
      (((if l.returnState.isAttributeValue && !found.terminated && goesOn then l.flushRaw stop
      else if found.terminated then l.flushDecoded found.value stop
      else (l.reportAt .missingSemicolonAfterCharacterReference stop).flushDecoded found.value
        stop).skip found.length).goto l.returnState)
      (((if l.returnState.isAttributeValue && !found.terminated && goesOn then l'.flushRaw stop'
      else if found.terminated then l'.flushDecoded found.value stop'
      else (l'.reportAt .missingSemicolonAfterCharacterReference stop').flushDecoded found.value
        stop').skip found.length).goto l.returnState) := by
  split
  · have hflush := h.flushRaw (by decide) hstop hlen
    exact (hflush.skip (by decide) hle).goesBack (by decide) rfl
  split
  · have hflush := h.flushDecoded (by decide) found.value hstop hlen
    rw [← flushDecoded_cursor l found.value stop] at hle
    exact (hflush.skip (by decide) hle).goesBack (by decide) (flushDecoded_returnState ..)
  · have hflush := (h.reportAt .missingSemicolonAfterCharacterReference hstop).flushDecoded
      (by decide) found.value hstop hlen
    refine (hflush.skip (by decide) ?_).goesBack (by decide) (flushDecoded_returnState ..)
    rwa [flushDecoded_cursor]

theorem onNamedCharacterReference_moved (he : Enters cs taken l .namedCharacterReference)
    (h : l.Moved r seen (.here :: LexState.namedCharacterReference.needs) l') :
    InStep r seen l.onNamedCharacterReference l'.onNamedCharacterReference := by
  obtain ⟨hhere, hstart, -, hcloses⟩ := h.known .here (by decide)
  have hret : l'.returnState = l.returnState := (h.known .reference (by decide)).1
  have hr : l.InReference cs taken ['&'] l.cursor.start := he.stage
  unfold onNamedCharacterReference
  rw [hhere, hcloses.match?_append, hret]
  split
  · exact (h.flushReference (by decide) "&").stays (by decide)
  · next found hfound =>
    obtain ⟨hle, hnext⟩ := hcloses.head?_drop_append hfound
    obtain ⟨raw, back, hh, hlen, hne, hchars, -⟩ := NamedReference.match?_eq_some hfound
    obtain ⟨c, raw, rfl⟩ := List.exists_cons_of_ne_nil hne
    have hin := (hr.extendName he hh hchars).length_le
    rw [hlen] at hin
    dsimp only
    rw [hnext]
    exact flushName_moved h found _ (by rw [hstart, Nat.add_assoc]) hin hle

theorem onAmbiguousAmpersand_moved
    (h : l.Moved r seen (.here :: LexState.ambiguousAmpersand.needs) l') (c : Option Char) :
    InStep r seen (l.onAmbiguousAmpersand c) (l'.onAmbiguousAmpersand c) := by
  have hret : l'.returnState = l.returnState := (h.known .reference (by decide)).1
  unfold onAmbiguousAmpersand
  rw [hret]
  split
  · exact (h.report (by decide) _).staysBack (by decide) rfl
  · split
    · exact (h.flushReference (by decide) _).goes (by decide)
    · exact h.staysBack (by decide) rfl
  · exact h.staysBack (by decide) rfl

theorem onNumericCharacterReference_moved
    (h : l.Moved r seen (.here :: LexState.numericCharacterReference.needs) l')
    (c : Option Char) :
    InStep r seen (l.onNumericCharacterReference c) (l'.onNumericCharacterReference c) := by
  have hset : ({ l with charCode := 0 } : Lexer).Moved r seen [.here, .reference, .code]
      { l' with charCode := 0 } :=
    { h with
      buffer := h.buffer.mono fun hn => h.startName <| hn.imp_right fun hor =>
        hor.imp_left fun hmem => absurd hmem (by decide)
      known := List.forall_mem_cons.2 ⟨h.known .here (by decide),
        List.forall_mem_cons.2 ⟨h.known .reference (by decide), List.forall_mem_singleton.2 rfl⟩⟩ }
  unfold onNumericCharacterReference
  split
  · exact hset.goes (by decide)
  · exact hset.goes (by decide)
  · exact hset.stays (by decide)

theorem onNumericReferenceStart_moved (h : l.Moved r seen [.here, .reference, .code] l')
    {isDigit : Char → Bool} (hs : s.needs = [.reference, .code])
    (hlen : l.cursor.start - l.refStart ≤ l.refText.length) (c : Option Char) :
    InStep r seen (l.onNumericReferenceStart isDigit s c)
      (l'.onNumericReferenceStart isDigit s c) := by
  have hret : l'.returnState = l.returnState := (h.known .reference (by decide)).1
  unfold onNumericReferenceStart
  rw [hret]
  split
  · refine h.stays ?_
    rw [hs]
    decide
  · have hflush := (h.report (by decide)
      .absenceOfDigitsInNumericCharacterReference).flushRaw (by decide) (h.start (by decide)) hlen
    exact hflush.staysBack (by decide) rfl

theorem finishNumericReference_moved (h : l.Moved r seen [.here, .reference, .code] l')
    {stop stop' : Nat} (hstop : stop' = r.index + stop)
    (hlen : stop - l.refStart ≤ l.refText.length) :
    (l.finishNumericReference stop).Moved r seen [.here, .reference, .code]
      (l'.finishNumericReference stop') := by
  have hcode : l'.charCode = l.charCode := h.known .code (by decide)
  unfold finishNumericReference
  rw [hcode]
  split
  · exact (h.report (by decide) _).flushDecoded (by decide) _ hstop hlen
  · exact h.flushDecoded (by decide) _ hstop hlen

theorem finishNumericReference_returnState (l : Lexer) (stop : Nat) :
    (l.finishNumericReference stop).returnState = l.returnState := by
  unfold finishNumericReference
  split <;> exact flushDecoded_returnState ..

theorem onNumericReferenceDigits_moved (h : l.Moved r seen [.here, .reference, .code] l')
    {isDigit : Char → Bool} {radix : Nat} (hs : s.needs = [.reference, .code])
    (hlen : l.cursor.start - l.refStart ≤ l.refText.length) (c : Option Char)
    (hsemi : c = some ';' → l.cursor.index - l.refStart ≤ l.refText.length) :
    InStep r seen (l.onNumericReferenceDigits isDigit radix s c)
      (l'.onNumericReferenceDigits isDigit radix s c) := by
  have hret : l'.returnState = l.returnState := (h.known .reference (by decide)).1
  have hcode : l'.charCode = l.charCode := h.known .code (by decide)
  have hend : InStep r seen
      (((l.report .missingSemicolonAfterCharacterReference).finishNumericReference
        l.cursor.start).reconsume l.returnState)
      (((l'.report .missingSemicolonAfterCharacterReference).finishNumericReference
        l'.cursor.start).reconsume l.returnState) := by
    have hreport := h.report (by decide) .missingSemicolonAfterCharacterReference
    exact (finishNumericReference_moved hreport (h.start (by decide)) hlen).staysBack (by decide)
      (finishNumericReference_returnState ..)
  unfold onNumericReferenceDigits
  rw [hret]
  split
  · next c =>
    split
    · have hdigit : (l.addDigit radix (CharClass.digitValue c)).Moved r seen
          [.here, .reference, .code] (l'.addDigit radix (CharClass.digitValue c)) :=
        { h with
          known := fun x hx => by
            cases x with
            | code =>
              exact congrArg (fun n => min (n * radix + CharClass.digitValue c) 0x110000) hcode
            | _ => exact h.known _ hx }
      refine hdigit.goes ?_
      rw [hs]
      decide
    split
    · next hc =>
      obtain rfl : c = ';' := by simpa using hc
      exact (finishNumericReference_moved h h.index (hsemi rfl)).goesBack (by decide)
        (finishNumericReference_returnState ..)
    · exact hend
  · exact hend

/-! ## Interpolations -/

theorem onInterpolationStart_moved
    (h : l.Moved r seen (.here :: LexState.interpolationStart.needs) l') (c : Option Char) :
    InStep r seen (l.onInterpolationStart c) (l'.onInterpolationStart c) := by
  have hm : l'.mark = r.index + l.mark := h.known .mark (by decide)
  have ho : l'.outerState = l.outerState := h.known .outer (by decide)
  unfold onInterpolationStart
  split
  · dsimp only
    have htoken := ((h.startTokenAt .interpolationStart hm).push "\x7b\x7b").endToken
    have hset : Field.opening.Moved r { l with interpolationStart := l.mark }
        { l' with interpolationStart := l'.mark } := hm
    have hopen : ({ ((l.startTokenAt .interpolationStart l.mark).push "\x7b\x7b").endToken with
          interpolationStart := l.mark } : Lexer).Moved r seen [.here, .outer, .opening]
        { ((l'.startTokenAt .interpolationStart l'.mark).push "\x7b\x7b").endToken with
          interpolationStart := l'.mark } := by
      have hfew : ∀ x ∈ [Field.here, .outer], x ∈ [Field.here, .mark, .outer] := by decide
      have hold := htoken.weaken hfew
      exact {
        hold with
        buffer := hold.buffer.mono fun hn => hold.startName <| hn.imp_right fun hor =>
          hor.imp_left fun hmem => absurd hmem (by decide)
        known := List.forall_mem_cons.2 ⟨h.known .here (by decide),
          List.forall_mem_cons.2 ⟨ho, List.forall_mem_singleton.2 hset⟩⟩
        inside := fun _ => ⟨ho, hset⟩ }
    exact hopen.goes (by decide)
  · rw [hm, ho]
    exact (h.append _ _ rfl).staysOutside (by decide) rfl

theorem onInterpolationData_moved
    (h : l.Moved r seen (.here :: LexState.interpolationData.needs) l') (c : Option Char) :
    InStep r seen (l.onInterpolationData c) (l'.onInterpolationData c) := by
  have ho : l'.outerState = l.outerState := h.known .outer (by decide)
  unfold onInterpolationData
  split
  · exact (h.markHere (by decide)).goes (by decide)
  · exact h.refers rfl
  · rw [ho]
    exact (h.reportAt _ (h.known .opening (by decide))).staysOutside (by decide) rfl
  · exact (h.appendData (by decide) _ _).goes (by decide)

theorem onInterpolationEnd_moved
    (h : l.Moved r seen (.here :: LexState.interpolationEnd.needs) l') (c : Option Char) :
    InStep r seen (l.onInterpolationEnd c) (l'.onInterpolationEnd c) := by
  have hm : l'.mark = r.index + l.mark := h.known .mark (by decide)
  have ho : l'.outerState = l.outerState := h.known .outer (by decide)
  unfold onInterpolationEnd
  split
  · rw [ho]
    exact (((h.startTokenAt _ hm).push _).endToken).goesOutside (by decide) rfl
  · exact (h.append _ _ hm).stays (by decide)

/-! ## One step -/

/-- A step of a lexer that keeps track of its text does the same in both readings. -/
theorem step_moved (he : Enters cs taken l l.state)
    (h : l.Moved r seen (.here :: l.state.needs) l') : InStep r seen l.step l'.step := by
  have hchar : l'.cursor.char = l.cursor.char := (h.known .here (List.mem_cons_self ..)).2.2.1
  unfold step
  dsimp only
  rw [h.state, hchar]
  generalize hc : l.cursor.char = c
  generalize l.state = s at h he
  have hs := he.stage
  have hsemi {raw : List Char} (hr : l.InReference cs taken raw l.cursor.start)
      (hc' : c = some ';') : l.cursor.index - l.refStart ≤ l.refText.length :=
    (hr.extend he (hc.trans hc') (by decide)).length_le
  cases s with
  | data => exact onData_moved h c
  | rcdata => exact onRcdata_moved h c
  | rawText => exact onRawText_moved h c
  | tagOpen => exact onTagOpen_moved h c
  | endTagOpen => exact onEndTagOpen_moved h c
  | tagName => exact onTagName_moved h c
  | rcdataLessThanSign => exact onTextLessThanSign_moved (.inl rfl) h c
  | rcdataEndTagOpen => exact onTextEndTagOpen_moved (.inl rfl) h c
  | rcdataEndTagName => exact onTextEndTagName_moved (.inl rfl) h c
  | rawTextLessThanSign => exact onTextLessThanSign_moved (.inr rfl) h c
  | rawTextEndTagOpen => exact onTextEndTagOpen_moved (.inr rfl) h c
  | rawTextEndTagName => exact onTextEndTagName_moved (.inr rfl) h c
  | beforeAttributeName => exact onBeforeAttributeName_moved h c
  | attributeName => exact onAttributeName_moved h c
  | afterAttributeName => exact onAfterAttributeName_moved h c
  | beforeAttributeValue => exact onBeforeAttributeValue_moved h c
  | attributeValueDoubleQuoted => exact onAttributeValueQuoted_moved rfl h c
  | attributeValueSingleQuoted => exact onAttributeValueQuoted_moved rfl h c
  | attributeValueUnquoted => exact onAttributeValueUnquoted_moved h c
  | afterAttributeValueQuoted => exact onAfterAttributeValueQuoted_moved h c
  | selfClosingStartTag => exact onSelfClosingStartTag_moved h c
  | bogusComment => exact onBogusComment_moved h c
  | markupDeclarationOpen => exact onMarkupDeclarationOpen_moved h c
  | commentStart => exact onCommentStart_moved h c
  | commentStartDash => exact onCommentStartDash_moved h c
  | comment => exact onComment_moved h c
  | commentLessThanSign => exact onCommentLessThanSign_moved h c
  | commentLessThanSignBang => exact onCommentLessThanSignBang_moved h c
  | commentLessThanSignBangDash => exact onCommentLessThanSignBangDash_moved h c
  | commentLessThanSignBangDashDash => exact onCommentLessThanSignBangDashDash_moved h c
  | commentEndDash => exact onCommentEndDash_moved h c
  | commentEnd => exact onCommentEnd_moved h c
  | commentEndBang => exact onCommentEndBang_moved h c
  | cdataSection => exact onCdataSection_moved h c
  | cdataSectionBracket => exact onCdataSectionBracket_moved h c
  | cdataSectionEnd => exact onCdataSectionEnd_moved h c
  | characterReference => exact onCharacterReference_moved h c
  | namedCharacterReference => exact onNamedCharacterReference_moved he h
  | ambiguousAmpersand => exact onAmbiguousAmpersand_moved h c
  | numericCharacterReference => exact onNumericCharacterReference_moved h c
  | hexadecimalCharacterReferenceStart =>
    obtain ⟨x, hx, hr, hcode⟩ := hs
    exact onNumericReferenceStart_moved h rfl hr.length_le c
  | decimalCharacterReferenceStart =>
    obtain ⟨hr, hcode⟩ := hs
    exact onNumericReferenceStart_moved h rfl hr.length_le c
  | hexadecimalCharacterReference =>
    obtain ⟨x, ds, hx, hr, hd⟩ := hs
    exact onNumericReferenceDigits_moved h rfl hr.length_le c (hsemi hr)
  | decimalCharacterReference =>
    obtain ⟨ds, hr, hd⟩ := hs
    exact onNumericReferenceDigits_moved h rfl hr.length_le c (hsemi hr)
  | interpolationStart => exact onInterpolationStart_moved h c
  | interpolationData => exact onInterpolationData_moved h c
  | interpolationEnd => exact onInterpolationEnd_moved h c

end Lexer
end TemplateSyntax
