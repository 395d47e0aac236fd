import TemplateSyntax.Proofs.LexerStage

/-! # Steps in content

The steps in text, at the start of tags and in text that may only end with a certain end tag. -/

namespace TemplateSyntax
namespace Lexer

open Text (byteLength From Between)

variable {cs : List Char} {taken : List Token} {l : Lexer} {s : LexState}

/-- A reference starts where the tokens have reached in a state `s`. -/
theorem startReference_sound (h : Enters cs taken l s) {r : LexState}
    (hc : l.cursor.char = some '&')
    (hr : Reaches cs l.locator l.HasGap taken l.buffer l.cursor.start r)
    (hs : r = .interpolationData → Surrounded cs l.outerState l.interpolationStart) :
    Sound cs taken (l.startReference r) := by
  have hne : l.cursor.char ≠ none := by simp [hc]
  refine .takes h.steady h.quiet hne ?_
  exact {
    between := h.steady.on.between hc (by decide)
    text := h.steady.on.here
    chars := List.forall_mem_singleton.2 (by decide)
    noGap := fun x hx _ => h.steady.noGap hc (by decide) hx
    reaches := hr
    surrounded := hs }

theorem startInterpolation_sound (h : Enters cs taken l s) {r : LexState}
    (hc : l.cursor.char = some '{') (hr : r = .data ∨ r = .rcdata)
    (hb : Builds cs l.locator l.HasGap taken l.buffer .content l.cursor.start) :
    Sound cs taken (l.startInterpolation r) := by
  have hne : l.cursor.char ≠ none := by simp [hc]
  exact .takes h.steady h.quiet hne ⟨hr, h.steady.on.between hc (by decide), hb⟩

/-- A character of the content is appended. -/
theorem appendData_builds (h : Enters cs taken l s) {k : TokenKind}
    (hk : Mode.content.after k = some .content) (hk' : k ≠ .literal ∧ k ≠ .identifier)
    (hb : Builds cs l.locator l.HasGap taken l.buffer .content l.cursor.start) (c : Char) :
    Builds cs l.locator l.HasGap taken
      (l.buffer.append l.locator (if CharClass.isBlank c then .whitespace else k)
        (String.singleton c) l.cursor.start) .content l.cursor.index := by
  refine (hb.append h.steady.size (Nat.le_refl _) h.steady.on.start_le_size ?_ ?_ _).raise
    h.steady.on.start_le_index
  · split
    · rfl
    · exact hk
  · split
    · decide
    · exact hk'

theorem onData_sound (h : Enters cs taken l .data) : Sound cs taken (l.onData l.cursor.char) := by
  have hs : Builds cs l.locator l.HasGap taken l.buffer .content l.cursor.start ∨
    (true = true ∧ l.cursor.char = none ∧
      BuildsMustache cs l.locator l.HasGap taken l.buffer l.cursor.start) := h.stage
  have hi := h.steady.on.start_le_index
  rcases hs.symm with ⟨-, hc, hb⟩ | hb
  · rw [(h.steady.on.eof hc).1] at hb
    rw [hc]
    exact .ends h.steady h.quiet hc (hb.rests h.steady.size)
  unfold onData
  split
  · next hc => exact .ends h.steady h.quiet hc (hb.rests h.steady.size h.steady.on.start_le_size)
  · next hc => exact .takes h.steady h.quiet (Cursor.char_ne_none hc) ⟨hi, hb⟩
  · next hc => exact startReference_sound h hc hb (by simp)
  · next hc =>
    split
    · exact startInterpolation_sound h hc (.inl rfl) hb
    · exact .takes h.steady h.quiet (Cursor.char_ne_none hc)
        (.inl (appendData_builds h rfl (by decide) hb '{'))
  · next c _ _ _ hc =>
    exact .takes h.steady h.quiet (Cursor.char_ne_none hc)
      (.inl (appendData_builds h rfl (by decide) hb c))

theorem onRcdata_sound (h : Enters cs taken l .rcdata) :
    Sound cs taken (l.onRcdata l.cursor.char) := by
  have hs : Builds cs l.locator l.HasGap taken l.buffer .content l.cursor.start ∨
    (true = true ∧ l.cursor.char = none ∧
      BuildsMustache cs l.locator l.HasGap taken l.buffer l.cursor.start) := h.stage
  have hi := h.steady.on.start_le_index
  rcases hs.symm with ⟨-, hc, hb⟩ | hb
  · rw [(h.steady.on.eof hc).1] at hb
    rw [hc]
    exact .ends h.steady h.quiet hc (hb.rests h.steady.size)
  unfold onRcdata
  split
  · next hc => exact .ends h.steady h.quiet hc (hb.rests h.steady.size h.steady.on.start_le_size)
  · next hc => exact .takes h.steady h.quiet (Cursor.char_ne_none hc) ⟨hi, hb⟩
  · next hc => exact startReference_sound h hc hb (by simp)
  · next hc =>
    split
    · exact startInterpolation_sound h hc (.inr rfl) hb
    · exact .takes h.steady h.quiet (Cursor.char_ne_none hc)
        (.inl (appendData_builds h rfl (by decide) hb '{'))
  · next c _ _ _ hc =>
    exact .takes h.steady h.quiet (Cursor.char_ne_none hc)
      (.inl (appendData_builds h rfl (by decide) hb c))

theorem onRawText_sound (h : Enters cs taken l .rawText) :
    Sound cs taken (l.onRawText l.cursor.char) := by
  have hb : Builds cs l.locator l.HasGap taken l.buffer .content l.cursor.start := h.stage
  have hi := h.steady.on.start_le_index
  unfold onRawText
  split
  · next hc => exact .ends h.steady h.quiet hc (hb.rests h.steady.size h.steady.on.start_le_size)
  · next hc => exact .takes h.steady h.quiet (Cursor.char_ne_none hc) ⟨hi, hb⟩
  · next c _ hc =>
    exact .takes h.steady h.quiet (Cursor.char_ne_none hc)
      (appendData_builds h rfl (by decide) hb c)

/-! ## Starts of tags -/

/-- Text that turned out to be content is appended from the mark on. -/
theorem appendMarked_builds (h : Enters cs taken l s) {k : TokenKind}
    (hk : Mode.content.after k = some .content) (hk' : k ≠ .literal ∧ k ≠ .identifier)
    (hm : l.mark ≤ l.cursor.start)
    (hb : Builds cs l.locator l.HasGap taken l.buffer .content l.mark) (text : String) :
    Builds cs l.locator l.HasGap taken (l.buffer.append l.locator k text l.mark) .content
      l.cursor.start :=
  (hb.append h.steady.size (Nat.le_refl _) (Nat.le_trans hm h.steady.on.start_le_size) hk hk'
    text).raise hm

theorem onTagOpen_sound (h : Enters cs taken l .tagOpen) :
    Sound cs taken (l.onTagOpen l.cursor.char) := by
  obtain ⟨hm, hb⟩ : l.mark ≤ l.cursor.start ∧
    Builds cs l.locator l.HasGap taken l.buffer .content l.mark := h.stage
  have hi := Nat.le_trans hm h.steady.on.start_le_index
  have hsize := Nat.le_trans hm h.steady.on.start_le_size
  unfold onTagOpen
  split
  · next hc => exact .takes h.steady h.quiet (Cursor.char_ne_none hc) ⟨hi, hb⟩
  · next hc => exact .takes h.steady h.quiet (Cursor.char_ne_none hc) ⟨hi, hb⟩
  · next hc =>
    have hs := hb.startAt h.steady.size (k := .bogusComment) (Nat.le_refl _) hsize rfl
      (by decide) (by decide)
    exact .repeats h.steady.checkHere h.quiet.2 rfl ⟨rfl, hs.raise hm⟩
  · next c _ _ _ hc =>
    split
    · have hs := hb.startAt h.steady.size (k := .tagOpen) (Nat.le_refl _) hsize rfl
        (by decide) (by decide)
      exact .repeats h.steady h.quiet.2 rfl ⟨hs.raise hm, .startAt (by decide)⟩
    · exact .repeats h.steady.checkHere h.quiet.2 rfl
        (.inl (appendMarked_builds h rfl (by decide) hm hb "<"))
  · next hc =>
    exact .repeats h.steady.checkHere h.quiet.2 rfl
      (.inl (appendMarked_builds h rfl (by decide) hm hb "<"))

theorem onEndTagOpen_sound (h : Enters cs taken l .endTagOpen) :
    Sound cs taken (l.onEndTagOpen l.cursor.char) := by
  obtain ⟨hm, hb⟩ : l.mark ≤ l.cursor.start ∧
    Builds cs l.locator l.HasGap taken l.buffer .content l.mark := h.stage
  have hi := Nat.le_trans hm h.steady.on.start_le_index
  have hsize := Nat.le_trans hm h.steady.on.start_le_size
  unfold onEndTagOpen
  split
  · next hc =>
    exact .takes h.steady.checkHere h.quiet (Cursor.char_ne_none hc) (.inl (hb.raise hi))
  · next c _ hc =>
    split
    · have hs := hb.startAt h.steady.size (k := .endTagOpen) (Nat.le_refl _) hsize rfl
        (by decide) (by decide)
      exact .repeats h.steady h.quiet.2 rfl ⟨hs.raise hm, .startAt (by decide)⟩
    · have hs := hb.startAt h.steady.size (k := .bogusComment) (Nat.le_refl _) hsize rfl
        (by decide) (by decide)
      exact .repeats h.steady.checkHere h.quiet.2 rfl ⟨rfl, hs.raise hm⟩
  · next hc =>
    exact .repeats h.steady.checkHere h.quiet.2 rfl
      (.inl (appendMarked_builds h rfl (by decide) hm hb "</"))

/-! ## End tags in text without tags -/

/-- The two kinds of text that may only end with a certain end tag. -/
def IsTextState (s : LexState) : Prop := s = .rcdata ∨ s = .rawText

theorem textKind_spec (hs : IsTextState s) :
    Mode.content.after s.textKind = some .content ∧
      s.textKind ≠ .literal ∧ s.textKind ≠ .identifier := by
  rcases hs with rfl | rfl <;> exact ⟨rfl, by decide⟩

theorem stage_text {r : Lexer} {here : Bool} (hs : IsTextState s)
    (hb : Builds cs r.locator r.HasGap taken r.buffer .content (r.frontier here)) :
    r.Stage cs taken here s := by
  rcases hs with rfl | rfl
  · exact .inl hb
  · exact hb

theorem stage_textEndTagOpen {r : Lexer} {here : Bool} (hs : IsTextState s)
    (hm : r.mark ≤ r.frontier here)
    (hb : Holds cs r.locator r.HasGap taken r.buffer r.mark) :
    r.Stage cs taken here (textEndTagOpen s) := by
  rcases hs with rfl | rfl <;> exact ⟨hm, hb⟩

theorem stage_textEndTagName {r : Lexer} {here : Bool} (hs : IsTextState s)
    (hm : r.mark ≤ r.frontier here)
    (hb : Holds cs r.locator r.HasGap taken r.buffer r.mark) :
    r.Stage cs taken here (textEndTagName s) := by
  rcases hs with rfl | rfl <;> exact ⟨hm, hb⟩

theorem onTextLessThanSign_sound (hs : IsTextState s) {r : LexState} (h : Enters cs taken l r)
    (hm : l.mark ≤ l.cursor.start)
    (hb : Builds cs l.locator l.HasGap taken l.buffer .content l.mark) :
    Sound cs taken (l.onTextLessThanSign s l.cursor.char) := by
  have hi := Nat.le_trans hm h.steady.on.start_le_index
  obtain ⟨hk, hk'⟩ := textKind_spec hs
  unfold onTextLessThanSign
  split
  · next hc =>
    exact .takes h.steady h.quiet (Cursor.char_ne_none hc) (stage_textEndTagOpen hs hi hb.hold)
  · exact .repeats h.steady h.quiet.2 rfl (stage_text hs (appendMarked_builds h hk hk' hm hb "<"))

/-- Text that was held back is put in place again. -/
theorem restoreHeldBack_sound (hs : IsTextState s) {r : LexState} (h : Enters cs taken l r)
    (hm : l.mark ≤ l.cursor.start)
    (hb : Holds cs l.locator l.HasGap taken l.buffer l.mark) :
    Sound cs taken ((l.restoreHeldBack s).reconsume s) := by
  obtain ⟨hk, hk'⟩ := textKind_spec hs
  have hsize := Nat.le_trans hm h.steady.on.start_le_size
  have ha := hb.restore.append h.steady.size (Nat.le_refl _) hsize hk hk' ("</" ++ l.endTagName)
  exact .repeats h.steady h.quiet.2 rfl (stage_text hs (ha.raise hm))

theorem onTextEndTagOpen_sound (hs : IsTextState s) {r : LexState} (h : Enters cs taken l r)
    (hm : l.mark ≤ l.cursor.start)
    (hb : Holds cs l.locator l.HasGap taken l.buffer l.mark) :
    Sound cs taken (l.onTextEndTagOpen s l.cursor.char) := by
  unfold onTextEndTagOpen
  split
  · split
    · exact .repeats h.steady h.quiet.2 rfl (stage_textEndTagName hs hm hb)
    · exact restoreHeldBack_sound hs h hm hb
  · exact restoreHeldBack_sound hs h hm hb

/-- A blank starts the token behind a part of a tag. -/
theorem startBlank_builds (h : Enters cs taken l s) {b : TokenBuffer} {f : Nat}
    (hf : f ≤ l.cursor.start) (hb : Builds cs l.locator l.HasGap taken b .tag f) (c : Char) :
    Builds cs l.locator l.HasGap taken
      ((b.startAt l.locator .whitespace l.cursor.start).push (String.singleton c)) .tag
      l.cursor.index :=
  (hb.startBlank h.steady.size hf h.steady.on.start_le_size _).raise
    h.steady.on.start_le_index

theorem onTextEndTagName_sound (hs : IsTextState s) {r : LexState} (h : Enters cs taken l r)
    (hm : l.mark ≤ l.cursor.start)
    (hb : Holds cs l.locator l.HasGap taken l.buffer l.mark) :
    Sound cs taken (l.onTextEndTagName s l.cursor.char) := by
  have hi := h.steady.on.start_le_index
  have hsize := h.steady.on.start_le_size
  have hp := (hb.promote h.steady.size (Nat.le_refl _) (Nat.le_trans hm hsize)).push_other
    (s := l.endTagName) (by simp [TokenBuffer.startAt])
  unfold onTextEndTagName
  split
  · next c hc =>
    split
    · exact .takes h.steady h.quiet (Cursor.char_ne_none hc) (startBlank_builds h hm hp c)
    · split
      · exact .takes h.steady h.quiet (Cursor.char_ne_none hc) ⟨hi, hp.raise hm⟩
      · split
        · exact .takes h.steady h.quiet (Cursor.char_ne_none hc)
            (.inl (hp.token h.steady.size hm hi h.steady.on.index_le_size rfl (by decide)
              (by decide)))
        · split
          · exact .takes h.steady h.quiet (Cursor.char_ne_none hc)
              (stage_textEndTagName hs (Nat.le_trans hm hi) hb)
          · exact restoreHeldBack_sound hs h hm hb
  · exact restoreHeldBack_sound hs h hm hb

end Lexer
end TemplateSyntax
