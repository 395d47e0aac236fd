import TemplateSyntax.Proofs.LexerRun

/-! # Tokens cover text

No token of the lexer is empty.  A token starts at the current character, at the mark of a construct
of several characters, or at a character reference, and it ends behind that place.  `Fills` keeps
for each state how far behind the start of the token that is being built the lexer is; a step in any
state keeps it, and so does a run. -/

namespace TemplateSyntax

/-- The token covers some text. -/
def Token.Covers (t : Token) : Prop := t.extent.span.start < t.extent.span.stop

/-! ## Tokens that are being built -/

namespace TokenBuffer

/-- The tokens that are ready cover text, and those that are being built start in front of `n`, so
that they cover text as well if they do not end in front of `n`. -/
structure Fills (b : TokenBuffer) (n : Nat) : Prop where
  ready : ∀ t ∈ b.ready, t.Covers
  current : ∀ t ∈ b.current, t.start < n
  heldBack : ∀ t ∈ b.heldBack, t.start < n

namespace Fills

variable {b : TokenBuffer} {l : Locator} {k : TokenKind} {s : String} {n n' i j : Nat}

theorem mono (h : b.Fills n) (hn : n ≤ n') : b.Fills n' where
  ready := h.ready
  current t ht := Nat.lt_of_lt_of_le (h.current t ht) hn
  heldBack t ht := Nat.lt_of_lt_of_le (h.heldBack t ht) hn

theorem handOver (h : b.Fills n) {t : PendingToken} (ht : t.start < j) :
    (b.handOver l t j).Fills n where
  ready x hx := by
    rcases List.mem_append.1 hx with hx | hx
    · exact h.ready x hx
    · rw [List.mem_singleton.1 hx]
      exact Nat.add_lt_add_left ht _
  current := h.current
  heldBack := h.heldBack

theorem commitCurrent (h : b.Fills n) (hj : n ≤ j) : (b.commitCurrent l j).Fills n := by
  unfold TokenBuffer.commitCurrent
  split
  · next t ht =>
    have hnone : ({ b with current := none } : TokenBuffer).Fills n := { h with current := nofun }
    exact hnone.handOver (Nat.lt_of_lt_of_le (h.current t ht) hj)
  · exact h

theorem commitHeldBack (h : b.Fills n) (hj : n ≤ j) : (b.commitHeldBack l j).Fills n := by
  unfold TokenBuffer.commitHeldBack
  split
  · next t ht =>
    have hnone : ({ b with heldBack := none } : TokenBuffer).Fills n := { h with heldBack := nofun }
    exact hnone.handOver (Nat.lt_of_lt_of_le (h.heldBack t ht) hj)
  · exact h

theorem startAt (h : b.Fills n) (hi : n ≤ i) : (b.startAt l k i).Fills (i + 1) := by
  have hc : (b.commitCurrent l i).Fills (i + 1) := (h.commitCurrent hi).mono (by omega)
  refine { hc with current := fun t ht => ?_ }
  obtain rfl : ⟨k, i, ""⟩ = t := Option.some.inj ht
  exact Nat.lt_succ_self i

theorem push (h : b.Fills n) : (b.push s).Fills n := by
  refine { h with current := fun t ht => ?_ }
  obtain ⟨t', ht', rfl⟩ := Option.map_eq_some_iff.1 ht
  exact h.current t' ht'

theorem finish (h : b.Fills n) (hj : n ≤ j) : (b.finish l j).Fills n := by
  unfold TokenBuffer.finish
  split
  · next t ht =>
    have hnone : ({ b with current := none } : TokenBuffer).Fills n := { h with current := nofun }
    exact hnone.handOver (Nat.lt_of_lt_of_le (h.current t ht) hj)
  · exact { h with }

theorem append (h : b.Fills n) (hi : n ≤ i) : (b.append l k s i).Fills (i + 1) := by
  unfold TokenBuffer.append TokenBuffer.continueAs
  split
  · exact (h.mono (by omega)).push
  · exact (h.startAt hi).push

/-- Text that goes on with the token that is being built starts none. -/
theorem append_of_kind (h : b.Fills n) (hk : b.current.map PendingToken.kind = some k) :
    (b.append l k s i).Fills n := by
  unfold TokenBuffer.append TokenBuffer.continueAs
  rw [if_pos hk]
  exact h.push

theorem hold (h : b.Fills n) : b.hold.Fills n where
  ready := h.ready
  current := by simp [TokenBuffer.hold]
  heldBack := h.current

theorem restore (h : b.Fills n) : b.restore.Fills n where
  ready := h.ready
  current := h.heldBack
  heldBack := by simp [TokenBuffer.restore]

end Fills

end TokenBuffer

/-! ## What a state keeps -/

namespace LexState

/-- The states in a construct that starts at the mark. -/
def isMarked : LexState → Bool
  | tagOpen | endTagOpen | markupDeclarationOpen | rcdataLessThanSign | rawTextLessThanSign
  | rcdataEndTagOpen | rcdataEndTagName | rawTextEndTagOpen | rawTextEndTagName
  | selfClosingStartTag | interpolationStart | interpolationEnd => true
  | _ => false

/-- The states in a character reference that nothing was appended for. -/
def isReference : LexState → Bool
  | characterReference | namedCharacterReference | numericCharacterReference
  | hexadecimalCharacterReferenceStart | decimalCharacterReferenceStart
  | hexadecimalCharacterReference | decimalCharacterReference => true
  | _ => false

/-- Whether a part of a tag that starts at the current character has that character. -/
def startsWith (c : Option Char) : LexState → Bool
  | attributeName => goesOnName c && c != some '='
  | attributeValueUnquoted => c.any fun c => c != '>' && !CharClass.isBlank c
  | _ => false

theorem startsWith_attributeName {c : Char} (h1 : c = '/' → False) (h2 : c = '>' → False)
    (h3 : c = '=' → False) (h4 : ¬ CharClass.isBlank c = true) :
    startsWith (some c) attributeName = true := by
  have hne : (some c != some '=') = true := by simpa using h3
  rw [startsWith, goesOnName_some h1 h2 h4, hne]
  rfl

end LexState

namespace Lexer

open TokenBuffer (Fills)

variable {cs : List Char} {taken : List Token} {l l' : Lexer} {s : LexState}

/-- Where the token that is being built may end in the state `s`: it starts in front of that. -/
def reach (l : Lexer) (here : Bool) (s : LexState) : Nat :=
  if s.isMarked then l.mark
  else if s.isReference then
    if l.returnState.isAttributeValue then l.refStart + 1 else l.refStart
  else if here && s.startsWith l.cursor.char then l.frontier here + 1
  else l.frontier here

/-- The tokens cover text, or will do so when they end, in the state `s`. -/
structure Fills (l : Lexer) (here : Bool) (s : LexState) : Prop where
  buffer : l.buffer.Fills (l.reach here s)
  mark : s.isMarked = true → l.mark < l.frontier here
  reference : s.isReference = true → l.refStart < l.frontier here

theorem reach_le (here : Bool) (hs : s.isMarked = false ∧ s.isReference = false) :
    l.reach here s ≤ l.frontier here + 1 := by
  unfold reach
  rw [hs.1, hs.2]
  simp only [Bool.false_eq_true, if_false]
  split <;> omega

theorem reach_eq {here : Bool} (hs : s.isMarked = false ∧ s.isReference = false)
    (hc : s.startsWith l.cursor.char = false) : l.reach here s = l.frontier here := by
  unfold reach
  rw [hs.1, hs.2, hc, Bool.and_false]
  rfl

/-- What is kept between two steps. -/
def Filled (l : Lexer) : Prop := l.Fills l.again l.state

namespace Filled

variable {here : Bool} {f : Nat}

/-- A state in which tokens reach up to the reading position. -/
theorem plain (ha : l'.again = here) (hs : l'.state.isMarked = false ∧ l'.state.isReference = false)
    (hf : f ≤ l'.frontier here) (hb : l'.buffer.Fills f) : l'.Filled where
  buffer := by
    have hreach : f ≤ l'.reach l'.again l'.state := by
      unfold reach
      rw [ha, hs.1, hs.2]
      simp only [Bool.false_eq_true, if_false]
      split <;> omega
    exact hb.mono hreach
  mark h := by simp [hs.1] at h
  reference h := by simp [hs.2] at h

/-- A state in which tokens reach up to the mark. -/
theorem marked (ha : l'.again = here) (hs : l'.state.isMarked = true ∧ l'.state.isReference = false)
    (hlt : l'.mark < l'.frontier here) (hb : l'.buffer.Fills l'.mark) : l'.Filled where
  buffer := by
    unfold reach
    rw [if_pos hs.1]
    exact hb
  mark _ := ha ▸ hlt
  reference h := by simp [hs.2] at h

/-- A state in which tokens reach up to a character reference. -/
theorem referring (ha : l'.again = here)
    (hs : l'.state.isMarked = false ∧ l'.state.isReference = true)
    (hlt : l'.refStart < l'.frontier here)
    (hb : l'.buffer.Fills
      (if l'.returnState.isAttributeValue then l'.refStart + 1 else l'.refStart)) : l'.Filled where
  buffer := by
    unfold reach
    rw [hs.1, hs.2]
    exact hb
  mark h := by simp [hs.1] at h
  reference _ := ha ▸ hlt

/-- A part of a tag starts with the current character. -/
theorem starts (ha : l'.again = true)
    (hs : l'.state.isMarked = false ∧ l'.state.isReference = false)
    (hc : l'.state.startsWith l'.cursor.char = true)
    (hb : l'.buffer.Fills (l'.cursor.start + 1)) : l'.Filled where
  buffer := by
    unfold reach
    rw [hs.1, hs.2, ha, hc]
    exact hb
  mark h := by simp [hs.1] at h
  reference h := by simp [hs.2] at h

end Filled

/-- There is text between the start of a character and its end. -/
theorem start_lt_index (hon : On cs l.cursor) {c : Char} (hc : l.cursor.char = some c) :
    l.cursor.start < l.cursor.index := by
  have hsize := hon.size_le hc
  have hpos := c.utf8Size_pos
  omega

section
variable (hon : On cs l.cursor) (ha : l.again = false)
include hon ha

/-! ## Content -/

theorem onData_fills (h : l.buffer.Fills l.cursor.start) : (l.onData l.cursor.char).Filled := by
  have hle := hon.start_le_index
  unfold onData
  split
  · exact .plain ha ⟨rfl, rfl⟩ hle h
  · next hc => exact .marked ha ⟨rfl, rfl⟩ (start_lt_index hon hc) h
  · next hc => exact .referring ha ⟨rfl, rfl⟩ (start_lt_index hon hc) h
  · next hc =>
    split
    · exact .marked ha ⟨rfl, rfl⟩ (start_lt_index hon hc) h
    · exact .plain ha ⟨rfl, rfl⟩ (start_lt_index hon hc) (h.append (Nat.le_refl _))
  · next hc => exact .plain ha ⟨rfl, rfl⟩ (start_lt_index hon hc) (h.append (Nat.le_refl _))

theorem onRcdata_fills (h : l.buffer.Fills l.cursor.start) :
    (l.onRcdata l.cursor.char).Filled := by
  have hle := hon.start_le_index
  unfold onRcdata
  split
  · exact .plain ha ⟨rfl, rfl⟩ hle h
  · next hc => exact .marked ha ⟨rfl, rfl⟩ (start_lt_index hon hc) h
  · next hc => exact .referring ha ⟨rfl, rfl⟩ (start_lt_index hon hc) h
  · next hc =>
    split
    · exact .marked ha ⟨rfl, rfl⟩ (start_lt_index hon hc) h
    · exact .plain ha ⟨rfl, rfl⟩ (start_lt_index hon hc) (h.append (Nat.le_refl _))
  · next hc => exact .plain ha ⟨rfl, rfl⟩ (start_lt_index hon hc) (h.append (Nat.le_refl _))

theorem onRawText_fills (h : l.buffer.Fills l.cursor.start) :
    (l.onRawText l.cursor.char).Filled := by
  have hle := hon.start_le_index
  unfold onRawText
  split
  · exact .plain ha ⟨rfl, rfl⟩ hle h
  · next hc => exact .marked ha ⟨rfl, rfl⟩ (start_lt_index hon hc) h
  · next hc => exact .plain ha ⟨rfl, rfl⟩ (start_lt_index hon hc) (h.append (Nat.le_refl _))

section
variable (hlt : l.mark < l.cursor.start) (h : l.buffer.Fills l.mark)
include hlt h

theorem onTagOpen_fills : (l.onTagOpen l.cursor.char).Filled := by
  have hle := hon.start_le_index
  unfold onTagOpen
  split
  · exact .marked ha ⟨rfl, rfl⟩ (Nat.lt_of_lt_of_le hlt hle) h
  · exact .marked ha ⟨rfl, rfl⟩ (Nat.lt_of_lt_of_le hlt hle) h
  · exact .plain rfl ⟨rfl, rfl⟩ hlt (h.startAt (Nat.le_refl _))
  · split
    · exact .plain rfl ⟨rfl, rfl⟩ hlt (h.startAt (Nat.le_refl _))
    · exact .plain rfl ⟨rfl, rfl⟩ hlt (h.append (Nat.le_refl _))
  · exact .plain rfl ⟨rfl, rfl⟩ hlt (h.append (Nat.le_refl _))

theorem onEndTagOpen_fills : (l.onEndTagOpen l.cursor.char).Filled := by
  have hle := hon.start_le_index
  unfold onEndTagOpen
  split
  · exact .plain ha ⟨rfl, rfl⟩ (Nat.le_of_lt (Nat.lt_of_lt_of_le hlt hle)) h
  · split
    · exact .plain rfl ⟨rfl, rfl⟩ hlt (h.startAt (Nat.le_refl _))
    · exact .plain rfl ⟨rfl, rfl⟩ hlt (h.startAt (Nat.le_refl _))
  · exact .plain rfl ⟨rfl, rfl⟩ hlt (h.append (Nat.le_refl _))

/-! ## End tags in text without tags -/

theorem onTextLessThanSign_fills (hs : IsTextState s) :
    (l.onTextLessThanSign s l.cursor.char).Filled := by
  have hle := hon.start_le_index
  unfold onTextLessThanSign
  split
  · rcases hs with rfl | rfl <;>
      exact .marked ha ⟨rfl, rfl⟩ (Nat.lt_of_lt_of_le hlt hle) h.hold
  · rcases hs with rfl | rfl <;> exact .plain rfl ⟨rfl, rfl⟩ hlt (h.append (Nat.le_refl _))

omit hon ha in
theorem restoreHeldBack_fills (hs : IsTextState s) :
    ((l.restoreHeldBack s).reconsume s).Filled := by
  rcases hs with rfl | rfl <;>
    exact .plain rfl ⟨rfl, rfl⟩ hlt (h.restore.append (Nat.le_refl _))

omit hon ha in
theorem onTextEndTagOpen_fills (hs : IsTextState s) :
    (l.onTextEndTagOpen s l.cursor.char).Filled := by
  unfold onTextEndTagOpen
  split
  · split
    · rcases hs with rfl | rfl <;> exact .marked rfl ⟨rfl, rfl⟩ hlt h
    · exact restoreHeldBack_fills hlt h hs
  · exact restoreHeldBack_fills hlt h hs

theorem onTextEndTagName_fills (hs : IsTextState s) :
    (l.onTextEndTagName s l.cursor.char).Filled := by
  have hle := hon.start_le_index
  have hb : l.promoteHeldBack.buffer.Fills l.cursor.start :=
    ((h.commitHeldBack (Nat.le_refl _)).startAt (Nat.le_refl _)).push.mono hlt
  unfold onTextEndTagName
  split
  · next c hc =>
    have hstart := start_lt_index hon hc
    split
    · exact .plain ha ⟨rfl, rfl⟩ hstart (hb.startAt (Nat.le_refl _)).push
    · split
      · exact .marked ha ⟨rfl, rfl⟩ hstart hb
      · split
        · exact .plain ha ⟨rfl, rfl⟩ hstart ((hb.startAt (Nat.le_refl _)).finish hstart)
        · split
          · rcases hs with rfl | rfl <;>
              exact .marked ha ⟨rfl, rfl⟩ (Nat.lt_of_lt_of_le hlt hle) h
          · exact restoreHeldBack_fills hlt h hs
  · exact restoreHeldBack_fills hlt h hs

end

/-! ## Tags -/

section
variable (h : l.buffer.Fills l.cursor.start)
include h

omit ha in
theorem oneCharToken_fills {c : Char} (hc : l.cursor.char = some c) (k : TokenKind) :
    (l.oneCharToken k).buffer.Fills l.cursor.index := by
  have hstart := start_lt_index hon hc
  exact ((h.startAt (Nat.le_refl _)).finish hstart).mono hstart

omit hon ha in
theorem startToken_fills (k : TokenKind) :
    (l.startToken k).buffer.Fills (l.cursor.start + 1) := h.startAt (Nat.le_refl _)

theorem onTagName_fills : (l.onTagName l.cursor.char).Filled := by
  have hle := hon.start_le_index
  unfold onTagName
  split
  · next hc => exact .marked ha ⟨rfl, rfl⟩ (start_lt_index hon hc) h
  · next hc => exact .plain ha ⟨rfl, rfl⟩ (Nat.le_refl _) (oneCharToken_fills hon h hc _)
  · exact .plain ha ⟨rfl, rfl⟩ hle h
  · next hc =>
    split
    · exact .plain ha ⟨rfl, rfl⟩ (start_lt_index hon hc) (h.startAt (Nat.le_refl _)).push
    · exact .plain ha ⟨rfl, rfl⟩ hle h.push

theorem onBeforeAttributeName_fills : (l.onBeforeAttributeName l.cursor.char).Filled := by
  unfold onBeforeAttributeName
  split
  · exact .plain rfl ⟨rfl, rfl⟩ (Nat.le_refl _) h
  · exact .plain rfl ⟨rfl, rfl⟩ (Nat.le_refl _) h
  · exact .plain rfl ⟨rfl, rfl⟩ (Nat.le_refl _) h
  · next hc => exact .plain ha ⟨rfl, rfl⟩ (start_lt_index hon hc) (startToken_fills h _).push
  · next c h1 h2 h3 hc =>
    split
    · exact .plain ha ⟨rfl, rfl⟩ (start_lt_index hon hc) (h.append (Nat.le_refl _))
    · next hw =>
      have hstarts : LexState.startsWith l.cursor.char .attributeName = true := by
        rw [hc]
        exact LexState.startsWith_attributeName h1 h2 h3 hw
      exact .starts rfl ⟨rfl, rfl⟩ hstarts (startToken_fills h _)

theorem onAfterAttributeName_fills : (l.onAfterAttributeName l.cursor.char).Filled := by
  have hle := hon.start_le_index
  unfold onAfterAttributeName
  split
  · next hc => exact .marked ha ⟨rfl, rfl⟩ (start_lt_index hon hc) h
  · next hc => exact .plain ha ⟨rfl, rfl⟩ (Nat.le_refl _) (oneCharToken_fills hon h hc _)
  · next hc => exact .plain ha ⟨rfl, rfl⟩ (Nat.le_refl _) (oneCharToken_fills hon h hc _)
  · exact .plain ha ⟨rfl, rfl⟩ hle h
  · next c h1 h2 h3 hc =>
    split
    · exact .plain ha ⟨rfl, rfl⟩ (start_lt_index hon hc) (h.append (Nat.le_refl _))
    · next hw =>
      have hstarts : LexState.startsWith l.cursor.char .attributeName = true := by
        rw [hc]
        exact LexState.startsWith_attributeName h1 h3 h2 hw
      exact .starts rfl ⟨rfl, rfl⟩ hstarts (startToken_fills h _)

theorem onBeforeAttributeValue_fills : (l.onBeforeAttributeValue l.cursor.char).Filled := by
  unfold onBeforeAttributeValue
  split
  · next hc => exact .plain ha ⟨rfl, rfl⟩ (start_lt_index hon hc) (startToken_fills h _)
  · next hc => exact .plain ha ⟨rfl, rfl⟩ (start_lt_index hon hc) (startToken_fills h _)
  · next hc => exact .plain ha ⟨rfl, rfl⟩ (Nat.le_refl _) (oneCharToken_fills hon h hc _)
  · exact .plain rfl ⟨rfl, rfl⟩ (Nat.le_refl _) h
  · next c _ _ h3 hc =>
    split
    · exact .plain ha ⟨rfl, rfl⟩ (start_lt_index hon hc) (h.append (Nat.le_refl _))
    · next hw =>
      have hstarts : LexState.startsWith l.cursor.char .attributeValueUnquoted = true := by
        have hne : (c != '>') = true := by simpa using h3
        rw [hc]
        simp [LexState.startsWith, hne, hw]
      exact .starts rfl ⟨rfl, rfl⟩ hstarts (startToken_fills h _)

theorem onAttributeValueQuoted_fills {quote : Char}
    (hs : (s.isMarked = false ∧ s.isReference = false) ∧ s.isAttributeValue = true) :
    (l.onAttributeValueQuoted quote s l.cursor.char).Filled := by
  have hle := hon.start_le_index
  unfold onAttributeValueQuoted
  split
  · exact .plain ha ⟨rfl, rfl⟩ hle h
  · next hc =>
    split
    · exact .plain ha ⟨rfl, rfl⟩ hle (h.finish hle)
    · split
      · refine .referring ha ⟨rfl, rfl⟩ (start_lt_index hon hc) ?_
        show l.buffer.Fills (if s.isAttributeValue then l.cursor.start + 1 else l.cursor.start)
        rw [if_pos hs.2]
        exact h.mono (Nat.le_succ _)
      · exact .plain ha hs.1 hle h.push

theorem onAfterAttributeValueQuoted_fills :
    (l.onAfterAttributeValueQuoted l.cursor.char).Filled := by
  have hle := hon.start_le_index
  unfold onAfterAttributeValueQuoted
  split
  · next hc => exact .marked ha ⟨rfl, rfl⟩ (start_lt_index hon hc) h
  · next hc => exact .plain ha ⟨rfl, rfl⟩ (Nat.le_refl _) (oneCharToken_fills hon h hc _)
  · exact .plain ha ⟨rfl, rfl⟩ hle h
  · next hc =>
    split
    · exact .plain ha ⟨rfl, rfl⟩ (start_lt_index hon hc) (startToken_fills h _).push
    · exact .plain rfl ⟨rfl, rfl⟩ (Nat.le_refl _) h

end

/-- The name of an attribute, which may start with the current character. -/
theorem onAttributeName_fills (h : l.buffer.Fills (l.reach true .attributeName)) :
    (l.onAttributeName l.cursor.char).Filled := by
  have hends : LexState.startsWith l.cursor.char .attributeName = false →
      l.buffer.Fills l.cursor.start := fun hc => by
    rwa [reach_eq ⟨rfl, rfl⟩ hc] at h
  have hnext : l.buffer.Fills (l.cursor.start + 1) := h.mono (reach_le true ⟨rfl, rfl⟩)
  unfold onAttributeName
  split
  · next hc => exact .plain rfl ⟨rfl, rfl⟩ (Nat.le_refl _) (hends (by rw [hc]; rfl))
  · next hc => exact .plain rfl ⟨rfl, rfl⟩ (Nat.le_refl _) (hends (by rw [hc]; rfl))
  · next hc => exact .plain rfl ⟨rfl, rfl⟩ (Nat.le_refl _) (hends (by rw [hc]; rfl))
  · next hc =>
    exact .plain ha ⟨rfl, rfl⟩ (Nat.le_refl _)
      (oneCharToken_fills hon (hends (by rw [hc]; rfl)) hc _)
  · next c _ _ _ hc =>
    split
    · next hw =>
      have hend : LexState.startsWith l.cursor.char .attributeName = false := by
        rw [hc, LexState.startsWith, LexState.goesOnName_of_isBlank hw, Bool.false_and]
      exact .plain rfl ⟨rfl, rfl⟩ (Nat.le_refl _) (hends hend)
    · have hlt := start_lt_index hon hc
      split
      · exact .plain ha ⟨rfl, rfl⟩ hlt hnext.push
      · exact .plain ha ⟨rfl, rfl⟩ hlt hnext.push

/-- A value without quotes, which may start with the current character. -/
theorem onAttributeValueUnquoted_fills
    (h : l.buffer.Fills (l.reach true .attributeValueUnquoted)) :
    (l.onAttributeValueUnquoted l.cursor.char).Filled := by
  have hends : LexState.startsWith l.cursor.char .attributeValueUnquoted = false →
      l.buffer.Fills l.cursor.start := fun hc => by
    rwa [reach_eq ⟨rfl, rfl⟩ hc] at h
  have hnext : l.buffer.Fills (l.cursor.start + 1) := h.mono (reach_le true ⟨rfl, rfl⟩)
  unfold onAttributeValueUnquoted
  split
  · next hc => exact .referring ha ⟨rfl, rfl⟩ (start_lt_index hon hc) hnext
  · next hc =>
    exact .plain ha ⟨rfl, rfl⟩ (Nat.le_refl _)
      (oneCharToken_fills hon (hends (by rw [hc]; rfl)) hc _)
  · next hc => exact .plain ha ⟨rfl, rfl⟩ hon.start_le_index (hends (by rw [hc]; rfl))
  · next c _ _ hc =>
    have hlt := start_lt_index hon hc
    split
    · next hw =>
      have hend : LexState.startsWith l.cursor.char .attributeValueUnquoted = false := by
        rw [hc]
        simp [LexState.startsWith, hw]
      exact .plain ha ⟨rfl, rfl⟩ hlt (startToken_fills (hends hend) _).push
    · split
      · exact .plain ha ⟨rfl, rfl⟩ hlt hnext.push
      · exact .plain ha ⟨rfl, rfl⟩ hlt hnext.push

theorem onSelfClosingStartTag_fills (hlt : l.mark < l.cursor.start)
    (h : l.buffer.Fills l.mark) : (l.onSelfClosingStartTag l.cursor.char).Filled := by
  have hindex := Nat.lt_of_lt_of_le hlt hon.start_le_index
  unfold onSelfClosingStartTag
  split
  · exact .plain ha ⟨rfl, rfl⟩ hindex ((h.startAt (Nat.le_refl _)).finish hindex)
  · exact .plain ha ⟨rfl, rfl⟩ (Nat.le_of_lt hindex) h
  · exact .plain rfl ⟨rfl, rfl⟩ (Nat.le_of_lt hlt) h

/-! ## Comments and CDATA sections -/

theorem onMarkupDeclarationOpen_fills (hlt : l.mark < l.cursor.start)
    (h : l.buffer.Fills l.mark) : (l.onMarkupDeclarationOpen l.cursor.char).Filled := by
  have hle := hon.start_le_index
  have hnew : ∀ k, (l.buffer.startAt l.locator k l.mark).Fills (l.mark + 1) := fun _ =>
    h.startAt (Nat.le_refl _)
  unfold onMarkupDeclarationOpen
  dsimp only
  split
  · exact .plain ha ⟨rfl, rfl⟩ (Nat.le_trans hlt (Nat.le_add_right _ 2)) (hnew _)
  · split
    · exact .plain ha ⟨rfl, rfl⟩ (Nat.le_trans hlt (Nat.le_add_right _ 7)) (hnew _)
    · split
      · exact .plain ha ⟨rfl, rfl⟩ (Nat.le_trans hlt hle) (hnew _)
      · exact .plain rfl ⟨rfl, rfl⟩ hlt (hnew _)

section
variable (h : l.buffer.Fills l.cursor.start)
include h

theorem onBogusComment_fills : (l.onBogusComment l.cursor.char).Filled := by
  have hle := hon.start_le_index
  unfold onBogusComment
  split
  · exact .plain ha ⟨rfl, rfl⟩ hle (h.finish hle)
  · exact .plain ha ⟨rfl, rfl⟩ hle h
  · exact .plain ha ⟨rfl, rfl⟩ hle h.push

theorem onCommentStart_fills : (l.onCommentStart l.cursor.char).Filled := by
  have hle := hon.start_le_index
  unfold onCommentStart
  split
  · exact .plain ha ⟨rfl, rfl⟩ hle h
  · exact .plain ha ⟨rfl, rfl⟩ hle (h.finish hle)
  · exact .plain rfl ⟨rfl, rfl⟩ (Nat.le_refl _) h

theorem onCommentStartDash_fills : (l.onCommentStartDash l.cursor.char).Filled := by
  have hle := hon.start_le_index
  unfold onCommentStartDash
  split
  · exact .plain ha ⟨rfl, rfl⟩ hle h
  · exact .plain ha ⟨rfl, rfl⟩ hle (h.finish hle)
  · exact .plain ha ⟨rfl, rfl⟩ hle h
  · exact .plain rfl ⟨rfl, rfl⟩ (Nat.le_refl _) h.push

theorem onComment_fills : (l.onComment l.cursor.char).Filled := by
  have hle := hon.start_le_index
  unfold onComment
  split
  · exact .plain ha ⟨rfl, rfl⟩ hle h.push
  · exact .plain ha ⟨rfl, rfl⟩ hle h
  · exact .plain ha ⟨rfl, rfl⟩ hle h
  · exact .plain ha ⟨rfl, rfl⟩ hle h.push

theorem onCommentLessThanSign_fills : (l.onCommentLessThanSign l.cursor.char).Filled := by
  have hle := hon.start_le_index
  unfold onCommentLessThanSign
  split
  · exact .plain ha ⟨rfl, rfl⟩ hle h.push
  · exact .plain ha ⟨rfl, rfl⟩ hle h.push
  · exact .plain rfl ⟨rfl, rfl⟩ (Nat.le_refl _) h

theorem onCommentLessThanSignBang_fills :
    (l.onCommentLessThanSignBang l.cursor.char).Filled := by
  unfold onCommentLessThanSignBang
  split
  · exact .plain ha ⟨rfl, rfl⟩ hon.start_le_index h
  · exact .plain rfl ⟨rfl, rfl⟩ (Nat.le_refl _) h

theorem onCommentLessThanSignBangDash_fills :
    (l.onCommentLessThanSignBangDash l.cursor.char).Filled := by
  unfold onCommentLessThanSignBangDash
  split
  · exact .plain ha ⟨rfl, rfl⟩ hon.start_le_index h
  · exact .plain rfl ⟨rfl, rfl⟩ (Nat.le_refl _) h

omit hon ha in
theorem onCommentLessThanSignBangDashDash_fills :
    (l.onCommentLessThanSignBangDashDash l.cursor.char).Filled := by
  unfold onCommentLessThanSignBangDashDash
  split
  · exact .plain rfl ⟨rfl, rfl⟩ (Nat.le_refl _) h
  · exact .plain rfl ⟨rfl, rfl⟩ (Nat.le_refl _) h
  · exact .plain rfl ⟨rfl, rfl⟩ (Nat.le_refl _) h

theorem onCommentEndDash_fills : (l.onCommentEndDash l.cursor.char).Filled := by
  have hle := hon.start_le_index
  unfold onCommentEndDash
  split
  · exact .plain ha ⟨rfl, rfl⟩ hle h
  · exact .plain ha ⟨rfl, rfl⟩ hle h
  · exact .plain rfl ⟨rfl, rfl⟩ (Nat.le_refl _) h.push

theorem onCommentEnd_fills : (l.onCommentEnd l.cursor.char).Filled := by
  have hle := hon.start_le_index
  unfold onCommentEnd
  split
  · exact .plain ha ⟨rfl, rfl⟩ hle (h.finish hle)
  · exact .plain ha ⟨rfl, rfl⟩ hle h
  · exact .plain ha ⟨rfl, rfl⟩ hle h.push
  · exact .plain ha ⟨rfl, rfl⟩ hle h
  · exact .plain rfl ⟨rfl, rfl⟩ (Nat.le_refl _) h.push

theorem onCommentEndBang_fills : (l.onCommentEndBang l.cursor.char).Filled := by
  have hle := hon.start_le_index
  unfold onCommentEndBang
  split
  · exact .plain ha ⟨rfl, rfl⟩ hle h.push
  · exact .plain ha ⟨rfl, rfl⟩ hle (h.finish hle)
  · exact .plain ha ⟨rfl, rfl⟩ hle h
  · exact .plain rfl ⟨rfl, rfl⟩ (Nat.le_refl _) h.push

theorem onCdataSection_fills : (l.onCdataSection l.cursor.char).Filled := by
  have hle := hon.start_le_index
  unfold onCdataSection
  split
  · exact .plain ha ⟨rfl, rfl⟩ hle h
  · exact .plain ha ⟨rfl, rfl⟩ hle h
  · exact .plain ha ⟨rfl, rfl⟩ hle h.push

theorem onCdataSectionBracket_fills : (l.onCdataSectionBracket l.cursor.char).Filled := by
  unfold onCdataSectionBracket
  split
  · exact .plain ha ⟨rfl, rfl⟩ hon.start_le_index h
  · exact .plain rfl ⟨rfl, rfl⟩ (Nat.le_refl _) h.push

theorem onCdataSectionEnd_fills : (l.onCdataSectionEnd l.cursor.char).Filled := by
  have hle := hon.start_le_index
  unfold onCdataSectionEnd
  split
  · exact .plain ha ⟨rfl, rfl⟩ hle h.push
  · exact .plain ha ⟨rfl, rfl⟩ hle (h.finish hle)
  · exact .plain rfl ⟨rfl, rfl⟩ (Nat.le_refl _) h.push

end

/-! ## Character references -/

/-- The tokens reach up to the character reference that is being read. -/
def FillsReference (l : Lexer) : Prop :=
  l.buffer.Fills (if l.returnState.isAttributeValue then l.refStart + 1 else l.refStart)

omit hon ha in
theorem FillsReference.flushReference (h : l.FillsReference) (text : String) :
    (l.flushReference text).buffer.Fills (l.refStart + 1) := by
  unfold FillsReference at h
  unfold Lexer.flushReference
  dsimp only
  split
  · next hs =>
    rw [if_pos hs] at h
    exact h.push
  · next hs =>
    rw [if_neg hs] at h
    exact h.append (Nat.le_refl _)

omit hon ha in
theorem FillsReference.flushRaw (h : l.FillsReference) (stop : Nat) :
    (l.flushRaw stop).buffer.Fills (l.refStart + 1) :=
  flushReference (l := l.checkReference stop) h _

omit hon ha in
theorem FillsReference.flushDecoded (h : l.FillsReference) (decoded : String) (stop : Nat) :
    (l.flushDecoded decoded stop).buffer.Fills (l.refStart + 1) := by
  unfold Lexer.flushDecoded
  dsimp only
  split
  · exact flushReference (l := l.checkReference stop) h _
  · exact h.flushRaw stop

omit hon ha in
theorem FillsReference.flushName (h : l.FillsReference) (found : NamedReference.Found) (stop : Nat)
    (goesOn : Bool) :
    (if l.returnState.isAttributeValue && !found.terminated && goesOn then l.flushRaw stop
      else if found.terminated then l.flushDecoded found.value stop
      else (l.reportAt .missingSemicolonAfterCharacterReference stop).flushDecoded found.value
        stop).buffer.Fills (l.refStart + 1) := by
  split
  · exact h.flushRaw stop
  · split
    · exact h.flushDecoded found.value stop
    · exact flushDecoded (l := l.reportAt .missingSemicolonAfterCharacterReference stop) h _ stop

omit hon ha in
theorem FillsReference.finishNumericReference (h : l.FillsReference) (stop : Nat) :
    (l.finishNumericReference stop).buffer.Fills (l.refStart + 1) := by
  unfold Lexer.finishNumericReference
  split
  · next cause _ => exact flushDecoded (l := l.report cause) h _ stop
  · exact h.flushDecoded _ stop

section
variable {f : Nat} (hr : Reaches cs l.locator l.HasGap taken l.buffer f l.returnState)
include hr

omit hon ha in
/-- A reference goes back to a state in which tokens reach up to the reading position. -/
theorem returnState_plain :
    l.returnState.isMarked = false ∧ l.returnState.isReference = false := by
  cases hs : l.returnState <;> first
    | exact ⟨rfl, rfl⟩
    | rw [hs] at hr; exact False.elim hr

omit hon ha in
/-- Going back with the current character. -/
theorem return_fills (hk : Keeps l l') (hlt : l.refStart < l.cursor.start)
    (hb : l'.buffer.Fills (l.refStart + 1)) : (l'.reconsume l.returnState).Filled := by
  refine .plain rfl (returnState_plain hr) ?_ hb
  show l.refStart + 1 ≤ l'.cursor.start
  rw [hk.cursor]
  exact hlt

omit hon in
/-- Going back behind the characters of a name. -/
theorem skip_fills (hlt : l.refStart < l.cursor.start) (hk : Keeps l l')
    (hb : l'.buffer.Fills (l.refStart + 1)) {count : Nat} :
    ((l'.skip count).goto l.returnState).Filled := by
  refine .plain (hk.again.trans ha) (returnState_plain hr) ?_ hb
  show l.refStart + 1 ≤ l'.cursor.start + count
  rw [hk.cursor]
  omega

section
variable (hlt : l.refStart < l.cursor.start) (h : l.FillsReference)
include hlt h

theorem onCharacterReference_fills : (l.onCharacterReference l.cursor.char).Filled := by
  have hflush := return_fills hr (flushReference_keeps l "&") hlt (h.flushReference "&")
  unfold onCharacterReference
  split
  · exact .referring ha ⟨rfl, rfl⟩ (Nat.lt_of_lt_of_le hlt hon.start_le_index) h
  · split
    · exact .referring rfl ⟨rfl, rfl⟩ hlt h
    · exact hflush
  · exact hflush

omit hon in
theorem onNamedCharacterReference_fills : l.onNamedCharacterReference.Filled := by
  unfold onNamedCharacterReference
  split
  · refine .plain rfl ⟨rfl, rfl⟩ ?_ (h.flushReference "&")
    show l.refStart + 1 ≤ (l.flushReference "&").cursor.start
    exact hlt
  · next found _ =>
    exact skip_fills ha hr hlt (flushName_keeps l found _ _) (h.flushName found _ _)

omit hr in
theorem onNumericCharacterReference_fills :
    (l.onNumericCharacterReference l.cursor.char).Filled := by
  have hindex := Nat.lt_of_lt_of_le hlt hon.start_le_index
  unfold onNumericCharacterReference
  split
  · exact .referring ha ⟨rfl, rfl⟩ hindex h
  · exact .referring ha ⟨rfl, rfl⟩ hindex h
  · exact .referring rfl ⟨rfl, rfl⟩ hlt h

omit hon ha in
theorem onNumericReferenceStart_fills {isDigit : Char → Bool} {digits : LexState}
    (hd : digits = .decimalCharacterReference ∨ digits = .hexadecimalCharacterReference) :
    (l.onNumericReferenceStart isDigit digits l.cursor.char).Filled := by
  unfold onNumericReferenceStart
  split
  · rcases hd with rfl | rfl <;> exact .referring rfl ⟨rfl, rfl⟩ hlt h
  · exact return_fills hr { flushRaw_keeps
      (l.report .absenceOfDigitsInNumericCharacterReference) l.cursor.start with } hlt
      (FillsReference.flushRaw
        (l := l.report .absenceOfDigitsInNumericCharacterReference) h l.cursor.start)

theorem onNumericReferenceDigits_fills {isDigit : Char → Bool} {radix : Nat} {digits : LexState}
    (hd : digits = .decimalCharacterReference ∨ digits = .hexadecimalCharacterReference) :
    (l.onNumericReferenceDigits isDigit radix digits l.cursor.char).Filled := by
  have hindex := Nat.lt_of_lt_of_le hlt hon.start_le_index
  have hflush : ((((l.report .missingSemicolonAfterCharacterReference).finishNumericReference
      l.cursor.start).reconsume l.returnState)).Filled :=
    return_fills hr { finishNumericReference_keeps
      (l.report .missingSemicolonAfterCharacterReference) l.cursor.start with } hlt
      (FillsReference.finishNumericReference
        (l := l.report .missingSemicolonAfterCharacterReference) h l.cursor.start)
  unfold onNumericReferenceDigits
  split
  · split
    · rcases hd with rfl | rfl <;> exact .referring ha ⟨rfl, rfl⟩ hindex h
    · split
      · have hk := finishNumericReference_keeps l l.cursor.index
        have hfills := h.finishNumericReference l.cursor.index
        generalize l.finishNumericReference l.cursor.index = x at hk hfills
        refine .plain (hk.again.trans ha) (returnState_plain hr) ?_ hfills
        show l.refStart + 1 ≤ x.cursor.index
        rw [hk.cursor]
        exact hindex
      · exact hflush
  · exact hflush

end
end

/-- Letters and digits behind an `&` go on with the text that the `&` was appended to. -/
theorem onAmbiguousAmpersand_fills (hr : l.AfterAmpersand cs taken l.cursor.start)
    (h : l.buffer.Fills l.cursor.start) : (l.onAmbiguousAmpersand l.cursor.char).Filled := by
  have hback : (l.reconsume l.returnState).Filled :=
    .plain rfl (returnState_plain hr.reaches) (Nat.le_refl _) h
  unfold onAmbiguousAmpersand
  split
  · exact .plain rfl (returnState_plain hr.reaches) (Nat.le_refl _) h
  · split
    · refine .plain ha ⟨rfl, rfl⟩ hon.start_le_index ?_
      show (l.flushReference _).buffer.Fills l.cursor.start
      unfold flushReference
      dsimp only
      split
      · exact h.push
      · next hs => exact h.append_of_kind (hr.kind (by simpa using hs))
    · exact hback
  · exact hback

/-! ## Interpolations -/

section
variable (ho : l.outerState = .data ∨ l.outerState = .rcdata)
include ho

omit hon ha in
theorem outerState_plain :
    l.outerState.isMarked = false ∧ l.outerState.isReference = false := by
  rcases ho with ho | ho <;> rw [ho] <;> exact ⟨rfl, rfl⟩

theorem onInterpolationStart_fills (hlt : l.mark < l.cursor.start) (h : l.buffer.Fills l.mark) :
    (l.onInterpolationStart l.cursor.char).Filled := by
  have hindex := Nat.lt_of_lt_of_le hlt hon.start_le_index
  unfold onInterpolationStart
  split
  · exact .plain ha ⟨rfl, rfl⟩ hindex ((h.startAt (Nat.le_refl _)).push.finish hindex)
  · exact .plain rfl (outerState_plain ho) hlt (h.append (Nat.le_refl _))

theorem onInterpolationData_fills (h : l.buffer.Fills l.cursor.start) :
    (l.onInterpolationData l.cursor.char).Filled := by
  unfold onInterpolationData
  split
  · next hc => exact .marked ha ⟨rfl, rfl⟩ (start_lt_index hon hc) h
  · next hc => exact .referring ha ⟨rfl, rfl⟩ (start_lt_index hon hc) h
  · exact .plain rfl (outerState_plain ho) (Nat.le_refl _) h
  · next hc => exact .plain ha ⟨rfl, rfl⟩ (start_lt_index hon hc) (h.append (Nat.le_refl _))

theorem onInterpolationEnd_fills (hlt : l.mark < l.cursor.start) (h : l.buffer.Fills l.mark) :
    (l.onInterpolationEnd l.cursor.char).Filled := by
  have hindex := Nat.lt_of_lt_of_le hlt hon.start_le_index
  unfold onInterpolationEnd
  split
  · exact .plain ha (outerState_plain ho) hindex ((h.startAt (Nat.le_refl _)).push.finish hindex)
  · exact .plain rfl ⟨rfl, rfl⟩ hlt (h.append (Nat.le_refl _))

end

end

/-- A step in any state keeps the tokens covering text. -/
theorem step_fills (h : Enters cs taken l l.state) (hf : l.Fills true l.state) :
    l.step.Filled := by
  have hon := h.steady.on
  have ha := h.quiet.1
  have hst := h.stage
  unfold step
  dsimp only
  generalize l.state = s at h hf hst
  have hb := hf.buffer
  have hmark := hf.mark
  have href := hf.reference
  cases s with
  | data => exact onData_fills hon ha hb
  | rcdata => exact onRcdata_fills hon ha hb
  | rawText => exact onRawText_fills hon ha hb
  | tagOpen => exact onTagOpen_fills hon ha (hmark rfl) hb
  | endTagOpen => exact onEndTagOpen_fills hon ha (hmark rfl) hb
  | tagName => exact onTagName_fills hon ha hb
  | rcdataLessThanSign => exact onTextLessThanSign_fills hon ha (hmark rfl) hb (.inl rfl)
  | rcdataEndTagOpen => exact onTextEndTagOpen_fills (hmark rfl) hb (.inl rfl)
  | rcdataEndTagName => exact onTextEndTagName_fills hon ha (hmark rfl) hb (.inl rfl)
  | rawTextLessThanSign => exact onTextLessThanSign_fills hon ha (hmark rfl) hb (.inr rfl)
  | rawTextEndTagOpen => exact onTextEndTagOpen_fills (hmark rfl) hb (.inr rfl)
  | rawTextEndTagName => exact onTextEndTagName_fills hon ha (hmark rfl) hb (.inr rfl)
  | beforeAttributeName => exact onBeforeAttributeName_fills hon ha hb
  | attributeName => exact onAttributeName_fills hon ha hb
  | afterAttributeName => exact onAfterAttributeName_fills hon ha hb
  | beforeAttributeValue => exact onBeforeAttributeValue_fills hon ha hb
  | attributeValueDoubleQuoted => exact onAttributeValueQuoted_fills hon ha hb ⟨⟨rfl, rfl⟩, rfl⟩
  | attributeValueSingleQuoted => exact onAttributeValueQuoted_fills hon ha hb ⟨⟨rfl, rfl⟩, rfl⟩
  | attributeValueUnquoted => exact onAttributeValueUnquoted_fills hon ha hb
  | afterAttributeValueQuoted => exact onAfterAttributeValueQuoted_fills hon ha hb
  | selfClosingStartTag => exact onSelfClosingStartTag_fills hon ha (hmark rfl) hb
  | bogusComment => exact onBogusComment_fills hon ha hb
  | markupDeclarationOpen => exact onMarkupDeclarationOpen_fills hon ha (hmark rfl) hb
  | commentStart => exact onCommentStart_fills hon ha hb
  | commentStartDash => exact onCommentStartDash_fills hon ha hb
  | comment => exact onComment_fills hon ha hb
  | commentLessThanSign => exact onCommentLessThanSign_fills hon ha hb
  | commentLessThanSignBang => exact onCommentLessThanSignBang_fills hon ha hb
  | commentLessThanSignBangDash => exact onCommentLessThanSignBangDash_fills hon ha hb
  | commentLessThanSignBangDashDash => exact onCommentLessThanSignBangDashDash_fills hb
  | commentEndDash => exact onCommentEndDash_fills hon ha hb
  | commentEnd => exact onCommentEnd_fills hon ha hb
  | commentEndBang => exact onCommentEndBang_fills hon ha hb
  | cdataSection => exact onCdataSection_fills hon ha hb
  | cdataSectionBracket => exact onCdataSectionBracket_fills hon ha hb
  | cdataSectionEnd => exact onCdataSectionEnd_fills hon ha hb
  | characterReference =>
    exact onCharacterReference_fills hon ha (InReference.reaches hst) (href rfl) hb
  | namedCharacterReference =>
    exact onNamedCharacterReference_fills ha (InReference.reaches hst) (href rfl) hb
  | ambiguousAmpersand => exact onAmbiguousAmpersand_fills hon ha hst hb
  | numericCharacterReference => exact onNumericCharacterReference_fills hon ha (href rfl) hb
  | hexadecimalCharacterReferenceStart =>
    obtain ⟨x, -, hr, -⟩ := hst
    exact onNumericReferenceStart_fills hr.reaches (href rfl) hb (.inr rfl)
  | decimalCharacterReferenceStart =>
    exact onNumericReferenceStart_fills hst.1.reaches (href rfl) hb (.inl rfl)
  | hexadecimalCharacterReference =>
    obtain ⟨x, ds, -, hr, -⟩ := hst
    exact onNumericReferenceDigits_fills hon ha hr.reaches (href rfl) hb (.inr rfl)
  | decimalCharacterReference =>
    obtain ⟨ds, hr, -⟩ := hst
    exact onNumericReferenceDigits_fills hon ha hr.reaches (href rfl) hb (.inl rfl)
  | interpolationStart => exact onInterpolationStart_fills hon ha hst.1 (hmark rfl) hb
  | interpolationData => exact onInterpolationData_fills hon ha hst.1.outer hb
  | interpolationEnd => exact onInterpolationEnd_fills hon ha hst.1.outer (hmark rfl) hb

/-! ## Runs -/

/-- The tokens that are ready cover text, and those that follow will. -/
structure CoversText (l : Lexer) : Prop where
  ready : ∀ t ∈ l.buffer.ready, t.Covers
  filled : l.finished = false → l.Filled

namespace CoversText

theorem ofFilled (h : l.Filled) : l.CoversText := ⟨h.buffer.ready, fun _ => h⟩

end CoversText

/-- Behind a character no token that is being built starts. -/
theorem Fills.upTo (h : l.Fills false s) : l.buffer.Fills l.cursor.index := by
  refine h.buffer.mono ?_
  unfold reach
  split
  · next hs => exact Nat.le_of_lt (h.mark hs)
  · split
    · next hs =>
      have hlt : l.refStart < l.cursor.index := h.reference hs
      split <;> omega
    · exact Nat.le_refl _

theorem advance_fills (hl : l.locator.index.size = Text.byteLength cs) (hb : l.breaches = [])
    (hn : Text.From cs l.cursor.index l.cursor.rest) (h : l.Fills false s) :
    l.advance.Fills true s := by
  obtain ⟨gaps, diagnostics, heq, -⟩ := advance_spec l hl hb hn
  rw [heq]
  have hstart : l.cursor.advance.start = l.cursor.index := Cursor.advance_start _
  refine ⟨h.buffer.mono ?_, fun hs => ?_, fun hs => ?_⟩
  · unfold reach frontier
    dsimp only
    rw [hstart]
    repeat' split
    all_goals first | contradiction | omega
  · exact Nat.lt_of_lt_of_eq (h.mark hs) hstart.symm
  · exact Nat.lt_of_lt_of_eq (h.reference hs) hstart.symm

theorem Tracks.entered_fills (h : Tracks cs taken l) (hf : l.finished = false) (hl : l.Filled) :
    l.entered.Fills true l.entered.state := by
  rw [(h.enters hf).2.2]
  unfold Filled at hl
  unfold entered
  split
  · next ha =>
    rw [ha] at hl
    exact ⟨hl.buffer, hl.mark, hl.reference⟩
  · next ha =>
    rw [Bool.eq_false_iff.2 ha] at hl
    obtain ⟨hn, -⟩ := h.moves hf (Bool.eq_false_iff.2 ha)
    exact advance_fills h.size h.noBreach hn hl

/-- Nothing depends on what the lexer is told. -/
theorem CoversText.outside (h : l.CoversText) (ns : Namespace) (interpolating : Bool)
    (log : Array LogEntry) : ({ l with ns, interpolating, log } : Lexer).CoversText where
  ready := h.ready
  filled hf := ⟨(h.filled hf).buffer, (h.filled hf).mark, (h.filled hf).reference⟩

theorem finish_coversText (h : l.Fills false s) : l.finish.CoversText where
  ready := ((h.upTo.commitHeldBack (Nat.le_refl _)).commitCurrent (Nat.le_refl _)).ready
  filled hf := by simp [finish] at hf

/-- A step keeps the tokens covering text. -/
theorem Tracks.advanceStep_coversText (h : Tracks cs taken l) (hf : l.finished = false)
    (hl : l.CoversText) : l.advanceStep.CoversText := by
  have hstep := step_fills (h.enters hf).1 (h.entered_fills hf (hl.filled hf))
  rw [advanceStep_eq]
  split
  · next hc =>
    simp only [Bool.and_eq_true, Bool.not_eq_true'] at hc
    have hfalse : l.entered.step.Fills false l.entered.step.state := hc.2 ▸ hstep
    exact (finish_coversText hfalse).outside _ _ _
  · exact (CoversText.ofFilled hstep).outside _ _ _

/-- The first token that is ready is handed out. -/
theorem CoversText.take (h : l.CoversText) {t : Token} {ready : List Token}
    (hr : l.buffer.ready = t :: ready) :
    t.Covers ∧ ({ l with buffer := { l.buffer with ready } } : Lexer).CoversText := by
  have hready : ∀ x ∈ t :: ready, x.Covers := hr ▸ h.ready
  have hrest : ∀ x ∈ ready, x.Covers := fun x hx => hready x (List.mem_cons_of_mem t hx)
  refine ⟨hready t (List.mem_cons_self ..), hrest, fun hf => ?_⟩
  have hfilled := h.filled hf
  exact ⟨{ hfilled.buffer with ready := hrest }, hfilled.mark, hfilled.reference⟩

/-- Tokens that are handed out cover text. -/
theorem Tracks.run_coversText {fuel : Nat} (h : Tracks cs taken l) (hl : l.CoversText) :
    (∀ t ∈ (l.run fuel).1, t.Covers) ∧
      (l.run fuel).2.CoversText := by
  have htake : ∀ {l : Lexer} {t : Token} {ready : List Token}, l.CoversText →
      l.buffer.ready = t :: ready →
      (∀ x ∈ some t, x.Covers) ∧ ({ l with buffer := { l.buffer with ready } } : Lexer).CoversText :=
    fun hl hr => ⟨fun x hx => Option.some.inj hx ▸ (hl.take hr).1, (hl.take hr).2⟩
  induction fuel generalizing l with
  | zero =>
    unfold Lexer.run
    split
    · next t ready hr => exact htake hl hr
    · next hr =>
      split
      · exact ⟨nofun, hl⟩
      · exact ⟨nofun, { hl with filled := nofun }⟩
  | succ fuel ih =>
    unfold Lexer.run
    split
    · next t ready hr => exact htake hl hr
    · next hr =>
      split
      · exact ⟨nofun, hl⟩
      · next hf =>
        have hf' : l.finished = false := by simpa using hf
        exact ih (h.advanceStep hf' hr) (h.advanceStep_coversText hf' hl)

theorem Tracks.pull_coversText (h : Tracks cs taken l) (hl : l.CoversText) :
    (∀ t ∈ l.pull.1, t.Covers) ∧ l.pull.2.CoversText :=
  h.run_coversText hl

/-- Content can be read in another way from where it starts. -/
theorem CoversText.enter (h : l.CoversText) (hs : IsTextState s) (hc : l.AtContent) :
    (l.enter s).CoversText := by
  rw [enter_eq]
  refine ⟨h.ready, fun hf => ?_⟩
  obtain ⟨hstate, ha⟩ := hc.place.resolve_left (by simp [show l.finished = false from hf])
  have hfilled : l.Fills false l.state := ha ▸ h.filled hf
  rcases hs with rfl | rfl <;> exact .plain ha ⟨rfl, rfl⟩ (Nat.le_refl _) hfilled.upTo

theorem coversText_start (cs : List Char) (locator : Locator) (tracing : Bool) :
    (Lexer.ofChars cs locator tracing).CoversText :=
  .ofFilled (.plain rfl ⟨rfl, rfl⟩ (Nat.le_refl _) ⟨nofun, nofun, nofun⟩)

end Lexer
end TemplateSyntax
