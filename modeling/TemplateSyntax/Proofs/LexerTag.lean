import TemplateSyntax.Proofs.LexerContent

/-! # Steps in tags

The steps in the names and values of attributes and between them. -/

namespace TemplateSyntax
namespace Lexer

open Text (byteLength From Between)

variable {cs : List Char} {taken : List Token} {l : Lexer} {s : LexState}

/-! ## Parts of tags -/

theorem ne_lineFeed_of_not_isBlank {c : Char} (h : ¬ CharClass.isBlank c = true) : c ≠ '\n' := by
  rintro rfl
  exact h rfl

/-- A character of a name is appended. -/
theorem pushChar_builds (h : Enters cs taken l s) {b : TokenBuffer} {c : Char}
    (hc : l.cursor.char = some c) (hn : c ≠ '\n')
    (hb : Builds cs l.locator l.HasGap taken b .tag l.cursor.start ∧
      NameUpTo cs l.HasGap b l.cursor.start) :
    Builds cs l.locator l.HasGap taken (b.push (String.singleton c)) .tag l.cursor.index ∧
      NameUpTo cs l.HasGap (b.push (String.singleton c)) l.cursor.index := by
  refine hb.1.push_name hb.2 ⟨?_, fun _ hx _ => h.steady.noGap hc hn hx⟩
  rw [String.toList_singleton]
  exact h.steady.on.between hc hn

/-- A blank is appended. -/
theorem appendBlank_builds (h : Enters cs taken l s)
    (hb : Builds cs l.locator l.HasGap taken l.buffer .tag l.cursor.start) (c : Char) :
    Builds cs l.locator l.HasGap taken
      (l.buffer.append l.locator .whitespace (String.singleton c) l.cursor.start) .tag
      l.cursor.index :=
  (hb.appendBlank h.steady.size (Nat.le_refl _) h.steady.on.start_le_size _).raise
    h.steady.on.start_le_index

/-- A part of a tag of one character. -/
theorem oneCharToken_builds (h : Enters cs taken l s) {k : TokenKind} {m : Mode}
    (ha : Mode.tag.after k = some m) (hm : m ≠ .interpolation)
    (hk : k ≠ .literal ∧ k ≠ .identifier)
    (hb : Builds cs l.locator l.HasGap taken l.buffer .tag l.cursor.start) :
    Builds cs l.locator l.HasGap taken
      ((l.buffer.startAt l.locator k l.cursor.start).finish l.locator l.cursor.index) m
      l.cursor.index :=
  hb.token h.steady.size (Nat.le_refl _) h.steady.on.start_le_index h.steady.on.index_le_size ha
    hm hk

/-- The name of an attribute starts. -/
theorem startIdentifier_builds (h : Enters cs taken l s) {c : Char}
    (hc : l.cursor.char = some c) (hn : c ≠ '\n')
    (hb : Builds cs l.locator l.HasGap taken l.buffer .tag l.cursor.start) :
    Builds cs l.locator l.HasGap taken
        (l.buffer.startAt l.locator .identifier l.cursor.start) .tag l.cursor.start ∧
      NameUpTo cs l.HasGap (l.buffer.startAt l.locator .identifier l.cursor.start)
        l.cursor.start :=
  hb.startName h.steady.size (Nat.le_refl _)
    ⟨h.steady.on.here.between_nil, fun _ hx _ => h.steady.noGap hc hn hx⟩

/-- A tag that the end of the text cuts off. -/
theorem eofInTag_sound (h : Enters cs taken l s) (hc : l.cursor.char = none)
    (hb : Builds cs l.locator l.HasGap taken l.buffer .tag l.cursor.start) :
    Sound cs taken ((l.report .eofInTag).goto .data) :=
  .ends h.steady.checkHere h.quiet hc (hb.rests h.steady.size h.steady.on.start_le_size)

theorem onTagName_sound (h : Enters cs taken l .tagName) :
    Sound cs taken (l.onTagName l.cursor.char) := by
  obtain ⟨hb, hname⟩ : Builds cs l.locator l.HasGap taken l.buffer .tag l.cursor.start ∧
    NameUpTo cs l.HasGap l.buffer l.cursor.start := h.stage
  have hi := h.steady.on.start_le_index
  unfold onTagName
  split
  · next hc => exact .takes h.steady h.quiet (Cursor.char_ne_none hc) ⟨hi, hb⟩
  · next hc =>
    exact .takes h.steady h.quiet (Cursor.char_ne_none hc)
      (.inl (oneCharToken_builds h rfl (by decide) (by decide) hb))
  · next hc => exact eofInTag_sound h hc hb
  · next c _ _ hc =>
    split
    · exact .takes h.steady h.quiet (Cursor.char_ne_none hc)
        (startBlank_builds h (Nat.le_refl _) hb c)
    · next hw =>
      exact .takes h.steady h.quiet (Cursor.char_ne_none hc)
        (pushChar_builds h hc (ne_lineFeed_of_not_isBlank hw) ⟨hb, hname⟩)

theorem onBeforeAttributeName_sound (h : Enters cs taken l .beforeAttributeName) :
    Sound cs taken (l.onBeforeAttributeName l.cursor.char) := by
  have hb : Builds cs l.locator l.HasGap taken l.buffer .tag l.cursor.start := h.stage
  unfold onBeforeAttributeName
  split
  · exact .repeats h.steady h.quiet.2 rfl hb
  · exact .repeats h.steady h.quiet.2 rfl hb
  · exact .repeats h.steady h.quiet.2 rfl hb
  · next hc =>
    exact .takes h.steady.checkHere h.quiet (Cursor.char_ne_none hc)
      (pushChar_builds h hc (by decide) (startIdentifier_builds h hc (by decide) hb))
  · next c _ _ _ hc =>
    split
    · exact .takes h.steady h.quiet (Cursor.char_ne_none hc) (appendBlank_builds h hb c)
    · next hw =>
      exact .repeats h.steady h.quiet.2 rfl
        (startIdentifier_builds h hc (ne_lineFeed_of_not_isBlank hw) hb)

theorem onAttributeName_sound (h : Enters cs taken l .attributeName) :
    Sound cs taken (l.onAttributeName l.cursor.char) := by
  obtain ⟨hb, hname⟩ : Builds cs l.locator l.HasGap taken l.buffer .tag l.cursor.start ∧
    NameUpTo cs l.HasGap l.buffer l.cursor.start := h.stage
  unfold onAttributeName
  split
  · exact .repeats h.steady h.quiet.2 rfl hb
  · exact .repeats h.steady h.quiet.2 rfl hb
  · exact .repeats h.steady h.quiet.2 rfl hb
  · next hc =>
    exact .takes h.steady h.quiet (Cursor.char_ne_none hc)
      (oneCharToken_builds h rfl (by decide) (by decide) hb)
  · next c _ _ _ hc =>
    split
    · exact .repeats h.steady h.quiet.2 rfl hb
    · next hw =>
      have hp := pushChar_builds h hc (ne_lineFeed_of_not_isBlank hw) ⟨hb, hname⟩
      split
      · exact .takes h.steady.checkHere h.quiet (Cursor.char_ne_none hc) hp
      · exact .takes h.steady h.quiet (Cursor.char_ne_none hc) hp

theorem onAfterAttributeName_sound (h : Enters cs taken l .afterAttributeName) :
    Sound cs taken (l.onAfterAttributeName l.cursor.char) := by
  have hb : Builds cs l.locator l.HasGap taken l.buffer .tag l.cursor.start := h.stage
  have hi := h.steady.on.start_le_index
  unfold onAfterAttributeName
  split
  · next hc => exact .takes h.steady h.quiet (Cursor.char_ne_none hc) ⟨hi, hb⟩
  · next hc =>
    exact .takes h.steady h.quiet (Cursor.char_ne_none hc)
      (oneCharToken_builds h rfl (by decide) (by decide) hb)
  · next hc =>
    exact .takes h.steady h.quiet (Cursor.char_ne_none hc)
      (.inl (oneCharToken_builds h rfl (by decide) (by decide) hb))
  · next hc => exact eofInTag_sound h hc hb
  · next c _ _ _ hc =>
    split
    · exact .takes h.steady h.quiet (Cursor.char_ne_none hc) (appendBlank_builds h hb c)
    · next hw =>
      exact .repeats h.steady h.quiet.2 rfl
        (startIdentifier_builds h hc (ne_lineFeed_of_not_isBlank hw) hb)

theorem onAfterAttributeValueQuoted_sound (h : Enters cs taken l .afterAttributeValueQuoted) :
    Sound cs taken (l.onAfterAttributeValueQuoted l.cursor.char) := by
  have hb : Builds cs l.locator l.HasGap taken l.buffer .tag l.cursor.start := h.stage
  have hi := h.steady.on.start_le_index
  unfold onAfterAttributeValueQuoted
  split
  · next hc => exact .takes h.steady h.quiet (Cursor.char_ne_none hc) ⟨hi, hb⟩
  · next hc =>
    exact .takes h.steady h.quiet (Cursor.char_ne_none hc)
      (.inl (oneCharToken_builds h rfl (by decide) (by decide) hb))
  · next hc => exact eofInTag_sound h hc hb
  · next c _ _ hc =>
    split
    · exact .takes h.steady h.quiet (Cursor.char_ne_none hc)
        (startBlank_builds h (Nat.le_refl _) hb c)
    · exact .repeats h.steady.checkHere h.quiet.2 rfl hb

theorem onSelfClosingStartTag_sound (h : Enters cs taken l .selfClosingStartTag) :
    Sound cs taken (l.onSelfClosingStartTag l.cursor.char) := by
  obtain ⟨hm, hb⟩ : l.mark ≤ l.cursor.start ∧
    Builds cs l.locator l.HasGap taken l.buffer .tag l.mark := h.stage
  have hi := Nat.le_trans hm h.steady.on.start_le_index
  unfold onSelfClosingStartTag
  split
  · next hc =>
    exact .takes h.steady h.quiet (Cursor.char_ne_none hc)
      (.inl (hb.token h.steady.size (Nat.le_refl _) hi h.steady.on.index_le_size rfl (by decide)
        (by decide)))
  · next hc => exact eofInTag_sound h hc (hb.raise hm)
  · exact .repeats h.steady.checkHere h.quiet.2 rfl (hb.raise hm)

/-! ## Values of attributes -/

/-- Nothing is decoded yet behind the start of a value. -/
theorem valueUpTo_start (h : Enters cs taken l s) {c : Char} (hc : l.cursor.char = some c)
    (hn : c ≠ '\n') {q : Option Char} {f : Nat}
    (hq : OpensValue cs l.cursor.start q) (hf : f = valueStart l.cursor.start q)
    (ht : ∃ tail, From cs f tail) : ValueUpTo cs l.HasGap q l.cursor.start "" f := by
  obtain ⟨tail, ht⟩ := ht
  have hg : ¬ l.HasGap f := h.steady.noGap hc hn (hf ▸ ValueUpTo.le_valueStart)
  refine ⟨hq, [], ?_, rfl, by simp⟩
  rw [← hf]
  exact .nil ht hg

theorem startQuoted_builds (h : Enters cs taken l s) {q : Char} (hc : l.cursor.char = some q)
    (hq : isQuote q = true)
    (hb : Builds cs l.locator l.HasGap taken l.buffer .tag l.cursor.start) :
    BuildsValue cs l.locator l.HasGap taken
      (l.buffer.startAt l.locator .literal l.cursor.start) (some q) l.cursor.index := by
  have hn : q ≠ '\n' := by
    rintro rfl
    exact absurd hq (by decide)
  obtain ⟨hh, hi, -⟩ := h.steady.on.plain hc hn
  have hs : q.utf8Size = 1 := by
    simp only [isQuote, Bool.or_eq_true, beq_iff_eq] at hq
    rcases hq with rfl | rfl <;> rfl
  have hfrom := h.steady.on.here
  rw [hh] at hfrom
  exact hb.startValue h.steady.size (Nat.le_refl _) h.steady.on.start_le_size
    (valueUpTo_start h hc hn ⟨hq, _, hfrom⟩ (by rw [hi, hs, valueStart]) ⟨_, h.steady.on.next⟩)

theorem startUnquoted_builds (h : Enters cs taken l s) {c : Char} (hc : l.cursor.char = some c)
    (hn : c ≠ '\n') (hq : isQuote c = false)
    (hb : Builds cs l.locator l.HasGap taken l.buffer .tag l.cursor.start) :
    BuildsValue cs l.locator l.HasGap taken
      (l.buffer.startAt l.locator .literal l.cursor.start) none l.cursor.start := by
  have hfrom := h.steady.on.here
  rw [(h.steady.on.plain hc hn).1] at hfrom
  exact hb.startValue h.steady.size (Nat.le_refl _) h.steady.on.start_le_size
    (valueUpTo_start h hc hn ⟨c, _, hfrom, hq⟩ rfl ⟨_, hfrom⟩)

theorem onBeforeAttributeValue_sound (h : Enters cs taken l .beforeAttributeValue) :
    Sound cs taken (l.onBeforeAttributeValue l.cursor.char) := by
  have hb : Builds cs l.locator l.HasGap taken l.buffer .tag l.cursor.start := h.stage
  unfold onBeforeAttributeValue
  split
  · next hc =>
    exact .takes h.steady h.quiet (Cursor.char_ne_none hc) (startQuoted_builds h hc rfl hb)
  · next hc =>
    exact .takes h.steady h.quiet (Cursor.char_ne_none hc) (startQuoted_builds h hc rfl hb)
  · next hc =>
    exact .takes h.steady.checkHere h.quiet (Cursor.char_ne_none hc)
      (.inl (oneCharToken_builds h rfl (by decide) (by decide) hb))
  · next hc => exact .repeats h.steady h.quiet.2 rfl (.inr ⟨rfl, hc, hb⟩)
  · next c h1 h2 _ hc =>
    split
    · exact .takes h.steady h.quiet (Cursor.char_ne_none hc) (appendBlank_builds h hb c)
    · next hw =>
      have hq : isQuote c = false := by
        simp only [isQuote, Bool.or_eq_false_iff, beq_eq_false_iff_ne]
        exact ⟨h1, h2⟩
      exact .repeats h.steady h.quiet.2 rfl
        (.inl (startUnquoted_builds h hc (ne_lineFeed_of_not_isBlank hw) hq hb))

/-- A character of a value is appended. -/
theorem pushChar_buildsValue (h : Enters cs taken l s) {c : Char} {q : Option Char}
    (hc : l.cursor.char = some c)
    (hq : ∀ d, q = some d → d ≠ c ∧ isQuote d = true)
    (hb : BuildsValue cs l.locator l.HasGap taken l.buffer q l.cursor.start) :
    BuildsValue cs l.locator l.HasGap taken (l.buffer.push (String.singleton c)) q
      l.cursor.index := by
  obtain ⟨ps, hps, hv, hr⟩ := h.steady.on.decodes hc h.steady.ahead
  refine hb.push hps (by rw [hv, String.toList_singleton]) fun d hd hmem => ?_
  obtain ⟨hne, hquote⟩ := hq d hd
  rcases hr d hmem with rfl | rfl | rfl
  · exact hne rfl
  · exact absurd hquote (by decide)
  · exact absurd hquote (by decide)

theorem onAttributeValueQuoted_sound {q : Char} (h : Enters cs taken l s)
    (hq : (q = '"' ∧ s = .attributeValueDoubleQuoted) ∨
      (q = '\'' ∧ s = .attributeValueSingleQuoted))
    (hb : BuildsValue cs l.locator l.HasGap taken l.buffer (some q) l.cursor.start) :
    Sound cs taken (l.onAttributeValueQuoted q s l.cursor.char) := by
  unfold onAttributeValueQuoted
  split
  · next hc =>
    rw [(h.steady.on.eof hc).1] at hb
    exact .ends h.steady.checkHere h.quiet hc (hb.rests h.steady.size)
  · next c hc =>
    have hne := Cursor.char_ne_none hc
    split
    · next heq =>
      obtain rfl : c = q := by simpa using heq
      have hn : c ≠ '\n' := by rcases hq with ⟨rfl, -⟩ | ⟨rfl, -⟩ <;> decide
      exact .takes h.steady h.quiet hne
        (hb.finish h.steady.size (.inl (h.steady.on.between hc hn)) h.steady.on.index_le_size)
    · next hcq =>
      split
      · next hamp =>
        obtain rfl : c = '&' := by simpa using hamp
        rcases hq with ⟨rfl, rfl⟩ | ⟨rfl, rfl⟩ <;> exact startReference_sound h hc hb (by simp)
      · have hp := pushChar_buildsValue h hc (fun d hd => by
          obtain rfl : q = d := Option.some.inj hd
          refine ⟨fun heq => hcq (by simp [heq]), ?_⟩
          rcases hq with ⟨rfl, -⟩ | ⟨rfl, -⟩ <;> rfl) hb
        rcases hq with ⟨rfl, rfl⟩ | ⟨rfl, rfl⟩ <;> exact .takes h.steady h.quiet hne hp

theorem onAttributeValueUnquoted_sound (h : Enters cs taken l .attributeValueUnquoted) :
    Sound cs taken (l.onAttributeValueUnquoted l.cursor.char) := by
  have hs : BuildsValue cs l.locator l.HasGap taken l.buffer none l.cursor.start ∨
    (true = true ∧ l.cursor.char = none ∧
      Builds cs l.locator l.HasGap taken l.buffer .tag l.cursor.start) := h.stage
  rcases hs.symm with ⟨-, hc, hb⟩ | hb
  · rw [hc]
    exact eofInTag_sound h hc hb
  have hsize := h.steady.on.start_le_size
  unfold onAttributeValueUnquoted
  split
  · next hc => exact startReference_sound h hc hb (by simp)
  · next hc =>
    have ht := hb.startAt h.steady.size (k := .tagClose) hsize rfl (by decide) (by decide)
    exact .takes h.steady h.quiet (Cursor.char_ne_none hc)
      (.inl
        (ht.finish h.steady.size rfl h.steady.on.start_le_index h.steady.on.index_le_size))
  · next hc =>
    rw [(h.steady.on.eof hc).1] at hb
    exact .ends h.steady.checkHere h.quiet hc (hb.rests h.steady.size)
  · next c _ _ hc =>
    have hne := Cursor.char_ne_none hc
    have hp := pushChar_buildsValue h hc (by simp) hb
    split
    · have hw := hb.startAt h.steady.size (k := .whitespace) hsize rfl (by decide) (by decide)
      exact .takes h.steady h.quiet hne
        ((hw.push_other (by simp [TokenBuffer.startAt]) _).raise h.steady.on.start_le_index)
    · split
      · exact .takes h.steady.checkHere h.quiet hne (.inl hp)
      · exact .takes h.steady h.quiet hne (.inl hp)

end Lexer
end TemplateSyntax
