import TemplateSyntax.Proofs.LexerContent

/-! # Steps in comments and CDATA sections

Between the start and the end of a comment there is always a token that is being built, so that
the end finishes it. -/

namespace TemplateSyntax

open Text (byteLength From Between)

namespace Lexer

variable {cs : List Char} {taken : List Token} {l : Lexer} {s : LexState}

/-- A token of content is being built, and the tokens reach up to `f`. -/
def Encloses (cs : List Char) (taken : List Token) (l : Lexer) (f : Nat) : Prop :=
  l.buffer.current.isSome = true ∧ Builds cs l.locator l.HasGap taken l.buffer .content f

theorem Encloses.push {f f' : Nat} (h : l.Encloses cs taken f) (hf : f ≤ f') (text : String) :
    (l.buffer.push text).current.isSome = true ∧
      Builds cs l.locator l.HasGap taken (l.buffer.push text) .content f' := by
  refine ⟨?_, (h.2.push_content text).raise hf⟩
  have := h.1
  simpa [TokenBuffer.push] using this

theorem Encloses.raise {f f' : Nat} (h : l.Encloses cs taken f) (hf : f ≤ f') :
    l.Encloses cs taken f' := ⟨h.1, h.2.raise hf⟩

section
variable (h : Enters cs taken l s) (he : l.Encloses cs taken l.cursor.start)
include h he

theorem finishEnclosed_builds :
    Builds cs l.locator l.HasGap taken (l.buffer.finish l.locator l.cursor.index) .content
      l.cursor.index :=
  he.2.finish h.steady.size he.1 h.steady.on.start_le_index h.steady.on.index_le_size

theorem eofEnclosed_rests : Rests cs l.locator l.HasGap taken
    ((l.buffer.commitHeldBack l.locator (byteLength cs)).commitCurrent l.locator
      (byteLength cs)) :=
  he.2.rests h.steady.size h.steady.on.start_le_size

theorem eofEnclosed_sound (hc : l.cursor.char = none) (cause : Cause) :
    Sound cs taken ((l.report cause).goto .data) := by
  have hr := eofEnclosed_rests h he
  exact .ends h.steady.checkHere h.quiet hc hr

theorem onBogusComment_sound : Sound cs taken (l.onBogusComment l.cursor.char) := by
  have hi := h.steady.on.start_le_index
  have hr := eofEnclosed_rests h he
  unfold onBogusComment
  split
  · next hc =>
    exact .takes h.steady h.quiet (Cursor.char_ne_none hc)
      (.inl (finishEnclosed_builds h he))
  · next hc => exact .ends h.steady h.quiet hc hr
  · next c _ hc => exact .takes h.steady h.quiet (Cursor.char_ne_none hc) (he.push hi _)

theorem onCommentStart_sound : Sound cs taken (l.onCommentStart l.cursor.char) := by
  have hi := h.steady.on.start_le_index
  unfold onCommentStart
  split
  · next hc => exact .takes h.steady h.quiet (Cursor.char_ne_none hc) (he.raise hi)
  · next hc =>
    exact .takes h.steady.checkHere h.quiet (Cursor.char_ne_none hc)
      (.inl (finishEnclosed_builds h he))
  · exact .repeats h.steady h.quiet.2 rfl he

theorem onCommentStartDash_sound : Sound cs taken (l.onCommentStartDash l.cursor.char) := by
  have hi := h.steady.on.start_le_index
  unfold onCommentStartDash
  split
  · next hc => exact .takes h.steady h.quiet (Cursor.char_ne_none hc) (he.raise hi)
  · next hc =>
    exact .takes h.steady.checkHere h.quiet (Cursor.char_ne_none hc)
      (.inl (finishEnclosed_builds h he))
  · next hc => exact eofEnclosed_sound h he hc _
  · exact .repeats h.steady h.quiet.2 rfl (he.push (Nat.le_refl _) _)

theorem onComment_sound : Sound cs taken (l.onComment l.cursor.char) := by
  have hi := h.steady.on.start_le_index
  unfold onComment
  split
  · next hc => exact .takes h.steady h.quiet (Cursor.char_ne_none hc) (he.push hi _)
  · next hc => exact .takes h.steady h.quiet (Cursor.char_ne_none hc) (he.raise hi)
  · next hc => exact eofEnclosed_sound h he hc _
  · next c _ _ hc => exact .takes h.steady h.quiet (Cursor.char_ne_none hc) (he.push hi _)

theorem onCommentLessThanSign_sound :
    Sound cs taken (l.onCommentLessThanSign l.cursor.char) := by
  have hi := h.steady.on.start_le_index
  unfold onCommentLessThanSign
  split
  · next hc => exact .takes h.steady h.quiet (Cursor.char_ne_none hc) (he.push hi _)
  · next hc => exact .takes h.steady h.quiet (Cursor.char_ne_none hc) (he.push hi _)
  · exact .repeats h.steady h.quiet.2 rfl he

theorem onCommentLessThanSignBang_sound :
    Sound cs taken (l.onCommentLessThanSignBang l.cursor.char) := by
  have hi := h.steady.on.start_le_index
  unfold onCommentLessThanSignBang
  split
  · next hc => exact .takes h.steady h.quiet (Cursor.char_ne_none hc) (he.raise hi)
  · exact .repeats h.steady h.quiet.2 rfl he

theorem onCommentLessThanSignBangDash_sound :
    Sound cs taken (l.onCommentLessThanSignBangDash l.cursor.char) := by
  have hi := h.steady.on.start_le_index
  unfold onCommentLessThanSignBangDash
  split
  · next hc => exact .takes h.steady h.quiet (Cursor.char_ne_none hc) (he.raise hi)
  · exact .repeats h.steady h.quiet.2 rfl he

theorem onCommentLessThanSignBangDashDash_sound :
    Sound cs taken (l.onCommentLessThanSignBangDashDash l.cursor.char) := by
  unfold onCommentLessThanSignBangDashDash
  split
  · exact .repeats h.steady h.quiet.2 rfl he
  · exact .repeats h.steady h.quiet.2 rfl he
  · exact .repeats h.steady.checkHere h.quiet.2 rfl he

theorem onCommentEndDash_sound : Sound cs taken (l.onCommentEndDash l.cursor.char) := by
  have hi := h.steady.on.start_le_index
  unfold onCommentEndDash
  split
  · next hc => exact .takes h.steady h.quiet (Cursor.char_ne_none hc) (he.raise hi)
  · next hc => exact eofEnclosed_sound h he hc _
  · exact .repeats h.steady h.quiet.2 rfl (he.push (Nat.le_refl _) _)

theorem onCommentEnd_sound : Sound cs taken (l.onCommentEnd l.cursor.char) := by
  have hi := h.steady.on.start_le_index
  unfold onCommentEnd
  split
  · next hc =>
    exact .takes h.steady h.quiet (Cursor.char_ne_none hc)
      (.inl (finishEnclosed_builds h he))
  · next hc => exact .takes h.steady h.quiet (Cursor.char_ne_none hc) (he.raise hi)
  · next hc => exact .takes h.steady h.quiet (Cursor.char_ne_none hc) (he.push hi _)
  · next hc => exact eofEnclosed_sound h he hc _
  · exact .repeats h.steady h.quiet.2 rfl (he.push (Nat.le_refl _) _)

theorem onCommentEndBang_sound : Sound cs taken (l.onCommentEndBang l.cursor.char) := by
  have hi := h.steady.on.start_le_index
  unfold onCommentEndBang
  split
  · next hc => exact .takes h.steady h.quiet (Cursor.char_ne_none hc) (he.push hi _)
  · next hc =>
    exact .takes h.steady.checkHere h.quiet (Cursor.char_ne_none hc)
      (.inl (finishEnclosed_builds h he))
  · next hc => exact eofEnclosed_sound h he hc _
  · exact .repeats h.steady h.quiet.2 rfl (he.push (Nat.le_refl _) _)

theorem onCdataSection_sound : Sound cs taken (l.onCdataSection l.cursor.char) := by
  have hi := h.steady.on.start_le_index
  unfold onCdataSection
  split
  · next hc => exact .takes h.steady h.quiet (Cursor.char_ne_none hc) (he.raise hi)
  · next hc => exact eofEnclosed_sound h he hc _
  · next c _ hc => exact .takes h.steady h.quiet (Cursor.char_ne_none hc) (he.push hi _)

theorem onCdataSectionBracket_sound :
    Sound cs taken (l.onCdataSectionBracket l.cursor.char) := by
  have hi := h.steady.on.start_le_index
  unfold onCdataSectionBracket
  split
  · next hc => exact .takes h.steady h.quiet (Cursor.char_ne_none hc) (he.raise hi)
  · exact .repeats h.steady h.quiet.2 rfl (he.push (Nat.le_refl _) _)

theorem onCdataSectionEnd_sound : Sound cs taken (l.onCdataSectionEnd l.cursor.char) := by
  have hi := h.steady.on.start_le_index
  unfold onCdataSectionEnd
  split
  · next hc => exact .takes h.steady h.quiet (Cursor.char_ne_none hc) (he.push hi _)
  · next hc =>
    exact .takes h.steady h.quiet (Cursor.char_ne_none hc)
      (.inl (finishEnclosed_builds h he))
  · exact .repeats h.steady h.quiet.2 rfl (he.push (Nat.le_refl _) _)

end

/-- The token of a construct that starts with `<!`, whose first characters are skipped. -/
theorem skipInto_sound (h : Enters cs taken l s) {r : LexState} {k : TokenKind}
    {raw tail : List Char} {ch : Char} (hh : l.cursor.here = (ch :: raw) ++ tail)
    (hch : ch ≠ '\n' ∧ ch ≠ '\r') (hraw : byteLength (ch :: raw) = (ch :: raw).length)
    (hm : l.mark ≤ l.cursor.start)
    (hb : Builds cs l.locator l.HasGap taken l.buffer .content l.mark)
    (hk : Mode.content.after k = some .content) (hk' : k ≠ .literal ∧ k ≠ .identifier)
    (hr : r = .commentStart ∨ r = .cdataSection) :
    Sound cs taken (((l.skip (ch :: raw).length).startTokenAt k l.mark).goto r) := by
  obtain ⟨hn, hc, hfrom, hdrop, hg⟩ := skip_spec h hh hch hraw
  have hs := hb.startAt h.steady.size (k := k) (Nat.le_refl _)
    (Nat.le_trans hm h.steady.on.start_le_size) hk (by decide) hk'
  have hs' := hs.raise (Nat.le_trans hm (Nat.le_add_right l.cursor.start (ch :: raw).length))
  have hbreach : (l.skip (ch :: raw).length).breaches = [] := by
    simp only [skip, hn, h.steady.noBreach, decide_true]
    rfl
  refine .jumps h.steady.size hbreach h.quiet hc ?_ hg ?_
  · rw [← hdrop] at hfrom
    exact hfrom
  · rcases hr with rfl | rfl <;> exact ⟨rfl, hs'⟩

theorem onMarkupDeclarationOpen_sound (h : Enters cs taken l .markupDeclarationOpen) :
    Sound cs taken (l.onMarkupDeclarationOpen l.cursor.char) := by
  obtain ⟨hm, hb⟩ : l.mark ≤ l.cursor.start ∧
    Builds cs l.locator l.HasGap taken l.buffer .content l.mark := h.stage
  have hbogus := (hb.startAt h.steady.size (k := .bogusComment) (Nat.le_refl _)
    (Nat.le_trans hm h.steady.on.start_le_size) rfl (by decide) (by decide)).raise hm
  unfold onMarkupDeclarationOpen
  split
  · next hp =>
    obtain ⟨tail, hh⟩ := List.isPrefixOf_iff_prefix.1 hp
    exact skipInto_sound h hh.symm (by decide) rfl hm hb rfl (by decide) (.inl rfl)
  · dsimp only
    split
    · next hp =>
      obtain ⟨tail, hh⟩ := List.isPrefixOf_iff_prefix.1 ((Bool.and_eq_true _ _).mp hp).1
      exact skipInto_sound h hh.symm (by decide) rfl hm hb rfl (by decide) (.inr rfl)
    · split
      · next hc =>
        have hc' : l.cursor.char = none := by simpa using hc
        exact .ends h.steady.checkHere h.quiet hc'
          (hbogus.rests h.steady.size h.steady.on.start_le_size)
      · exact .repeats h.steady.checkHere h.quiet.2 rfl ⟨rfl, hbogus⟩

end Lexer
end TemplateSyntax
