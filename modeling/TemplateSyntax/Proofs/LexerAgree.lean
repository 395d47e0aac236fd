import TemplateSyntax.Proofs.LexerProgress

/-! # Lexers that agree on what was read

A stage depends on what was read and on the tokens, and neither on the namespace and the log nor on
how the stream is divided into tokens that were handed out and tokens that are ready.  `Agrees`
lists what it depends on. -/

namespace TemplateSyntax

open Text (byteLength From Between)

/-- Two buffers that build the same tokens, with the same stream in front of them. -/
structure SameTokens (taken : List Token) (b : TokenBuffer) (taken' : List Token)
    (b' : TokenBuffer) : Prop where
  current : b'.current = b.current
  heldBack : b'.heldBack = b.heldBack
  breaches : b'.breaches = b.breaches
  tokens : taken' ++ b'.ready = taken ++ b.ready

section
variable {cs : List Char} {l : Locator} {gap : Nat → Prop} {taken taken' : List Token}
  {b b' : TokenBuffer} {m : Mode} {f : Nat} {q : Option Char}

namespace SameTokens

theorem refl (taken : List Token) (b : TokenBuffer) : SameTokens taken b taken b :=
  ⟨rfl, rfl, rfl, rfl⟩

variable (hb : SameTokens taken b taken' b')
include hb

theorem builds (h : Builds cs l gap taken b m f) : Builds cs l gap taken' b' m f where
  noBreach := hb.breaches.trans h.noBreach
  notHeld := hb.heldBack.trans h.notHeld
  outside := h.outside
  idle hc := by
    rw [hb.tokens]
    exact h.idle (hb.current.symm.trans hc)
  busy t hc := by
    rw [hb.tokens]
    exact h.busy t (hb.current.symm.trans hc)

theorem value (h : BuildsValue cs l gap taken b q f) : BuildsValue cs l gap taken' b' q f where
  noBreach := hb.breaches.trans h.noBreach
  notHeld := hb.heldBack.trans h.notHeld
  value := by
    rw [hb.tokens, hb.current]
    exact h.value

theorem mustache (h : BuildsMustache cs l gap taken b f) :
    BuildsMustache cs l gap taken' b' f where
  noBreach := hb.breaches.trans h.noBreach
  notHeld := hb.heldBack.trans h.notHeld
  idle hc := by
    rw [hb.tokens]
    exact h.idle (hb.current.symm.trans hc)
  busy t hc := by
    rw [hb.tokens]
    exact h.busy t (hb.current.symm.trans hc)

theorem holds (h : Holds cs l gap taken b f) : Holds cs l gap taken' b' f where
  idle := hb.current.trans h.idle
  builds :=
    have hb' : SameTokens taken { b with current := b.heldBack, heldBack := none } taken'
        { b' with current := b'.heldBack, heldBack := none } :=
      ⟨hb.heldBack, rfl, hb.breaches, hb.tokens⟩
    hb'.builds h.builds

theorem rests (h : Rests cs l gap taken b) : Rests cs l gap taken' b' where
  noBreach := hb.breaches.trans h.noBreach
  idle := hb.current.trans h.idle
  notHeld := hb.heldBack.trans h.notHeld
  stream := by
    rw [hb.tokens]
    exact h.stream

theorem reaches {r : LexState} (h : Reaches cs l gap taken b f r) :
    Reaches cs l gap taken' b' f r := by
  cases r with
  | data | rcdata => exact hb.builds h
  | attributeValueDoubleQuoted | attributeValueSingleQuoted | attributeValueUnquoted =>
    exact hb.value h
  | interpolationData => exact hb.mustache h
  | _ => exact False.elim h

end SameTokens

end

namespace Lexer

/-- `l'` has read what `l` has read: they differ in nothing that a stage depends on. -/
structure Agrees (taken : List Token) (l : Lexer) (here : Bool) (taken' : List Token) (l' : Lexer)
    (here' : Bool) : Prop where
  locator : l'.locator = l.locator
  tokens : SameTokens taken l.buffer taken' l'.buffer
  frontier : l'.frontier here' = l.frontier here
  gaps : ∀ x, x ≤ l.frontier here → (l'.HasGap x ↔ l.HasGap x)
  char : here = true → here' = true ∧ l'.cursor.char = l.cursor.char
  mark : l'.mark = l.mark
  refStart : l'.refStart = l.refStart
  refText : l'.refText = l.refText
  returnState : l'.returnState = l.returnState
  outerState : l'.outerState = l.outerState
  interpolationStart : l'.interpolationStart = l.interpolationStart
  charCode : l'.charCode = l.charCode

namespace Agrees

variable {cs : List Char} {taken taken' : List Token} {l l' : Lexer} {here here' : Bool}
  (ha : Agrees taken l here taken' l' here')
include ha

theorem gapsTo {f : Nat} (hf : f ≤ l.frontier here) {x : Nat} (hx : x ≤ f) :
    l'.HasGap x ↔ l.HasGap x := ha.gaps x (Nat.le_trans hx hf)

theorem builds {m : Mode} {f : Nat} (hf : f ≤ l.frontier here)
    (h : Builds cs l.locator l.HasGap taken l.buffer m f) :
    Builds cs l'.locator l'.HasGap taken' l'.buffer m f := by
  rw [ha.locator]
  exact (ha.tokens.builds h).mono fun x hx => ha.gapsTo hf hx

theorem value {q : Option Char} {f : Nat} (hf : f ≤ l.frontier here)
    (h : BuildsValue cs l.locator l.HasGap taken l.buffer q f) :
    BuildsValue cs l'.locator l'.HasGap taken' l'.buffer q f := by
  rw [ha.locator]
  exact (ha.tokens.value h).mono fun x hx => ha.gapsTo hf hx

theorem mustache {f : Nat} (hf : f ≤ l.frontier here)
    (h : BuildsMustache cs l.locator l.HasGap taken l.buffer f) :
    BuildsMustache cs l'.locator l'.HasGap taken' l'.buffer f := by
  rw [ha.locator]
  exact (ha.tokens.mustache h).mono fun x hx => ha.gapsTo hf hx

theorem holds {f : Nat} (hf : f ≤ l.frontier here)
    (h : Holds cs l.locator l.HasGap taken l.buffer f) :
    Holds cs l'.locator l'.HasGap taken' l'.buffer f := by
  rw [ha.locator]
  exact (ha.tokens.holds h).mono fun x hx => ha.gapsTo hf hx

theorem reaches {r : LexState} {f : Nat} (hf : f ≤ l.frontier here)
    (h : Reaches cs l.locator l.HasGap taken l.buffer f r) :
    Reaches cs l'.locator l'.HasGap taken' l'.buffer f r := by
  rw [ha.locator]
  exact (ha.tokens.reaches h).mono fun x hx => ha.gapsTo hf hx

theorem surrounded (h : Surrounded cs l.outerState l.interpolationStart) :
    Surrounded cs l'.outerState l'.interpolationStart := by
  rw [ha.outerState, ha.interpolationStart]
  exact h

theorem inReference {raw : List Char} (h : l.InReference cs taken raw (l.frontier here)) :
    l'.InReference cs taken' raw (l'.frontier here') := by
  have hle := h.between.le
  rw [ha.frontier]
  refine ⟨?_, ?_, h.chars, ?_, ?_, fun hr => ha.surrounded (h.surrounded ?_)⟩
  · rw [ha.refStart]
    exact h.between
  · rw [ha.refStart, ha.refText]
    exact h.text
  · intro x hlo hhi
    rw [ha.gaps x hhi]
    exact h.noGap x (ha.refStart ▸ hlo) hhi
  · rw [ha.refStart, ha.returnState]
    exact ha.reaches hle h.reaches
  · rw [← ha.returnState]
    exact hr

theorem readsDigits {isDigit : Char → Bool} {radix : Nat} {ds : List Char}
    (h : l.ReadsDigits isDigit radix here ds) : l'.ReadsDigits isDigit radix here' ds := by
  refine ⟨h.digits, ha.charCode.trans h.value, fun hds => ?_⟩
  obtain ⟨hhere, hany⟩ := h.first hds
  obtain ⟨hhere', hchar⟩ := ha.char hhere
  exact ⟨hhere', hchar ▸ hany⟩

theorem afterAmpersand (h : l.AfterAmpersand cs taken (l.frontier here)) :
    l'.AfterAmpersand cs taken' (l'.frontier here') := by
  rw [ha.frontier]
  refine ⟨?_, fun hr => ha.surrounded (h.surrounded ?_), fun hv => ?_⟩
  · rw [ha.returnState]
    exact ha.reaches (Nat.le_refl _) h.reaches
  · rw [← ha.returnState]
    exact hr
  · rw [ha.returnState] at hv ⊢
    rw [ha.tokens.current]
    exact h.kind hv

theorem buildsHere {m : Mode} (h : Builds cs l.locator l.HasGap taken l.buffer m (l.frontier here)) :
    Builds cs l'.locator l'.HasGap taken' l'.buffer m (l'.frontier here') := by
  rw [ha.frontier]
  exact ha.builds (Nat.le_refl _) h

theorem valueHere {q : Option Char}
    (h : BuildsValue cs l.locator l.HasGap taken l.buffer q (l.frontier here)) :
    BuildsValue cs l'.locator l'.HasGap taken' l'.buffer q (l'.frontier here') := by
  rw [ha.frontier]
  exact ha.value (Nat.le_refl _) h

theorem mustacheHere (h : BuildsMustache cs l.locator l.HasGap taken l.buffer (l.frontier here)) :
    BuildsMustache cs l'.locator l'.HasGap taken' l'.buffer (l'.frontier here') := by
  rw [ha.frontier]
  exact ha.mustache (Nat.le_refl _) h

theorem atEnd (h : here = true ∧ l.cursor.char = none) : here' = true ∧ l'.cursor.char = none := by
  obtain ⟨hhere, hchar⟩ := ha.char h.1
  exact ⟨hhere, hchar.trans h.2⟩

/-- Lexers that agree are in the same stage. -/
theorem stage {s : LexState} (h : l.Stage cs taken here s) : l'.Stage cs taken' here' s := by
  have hf := ha.frontier
  cases s with
  | data | rcdata =>
    rcases h with h | ⟨hh, hc, h⟩
    · exact .inl (ha.buildsHere h)
    · obtain ⟨hh', hc'⟩ := ha.atEnd ⟨hh, hc⟩
      exact .inr ⟨hh', hc', ha.mustacheHere h⟩
  | rawText | beforeAttributeName | afterAttributeName | beforeAttributeValue
  | afterAttributeValueQuoted =>
    exact ha.buildsHere h
  | tagName | attributeName =>
    refine ⟨ha.buildsHere h.1, fun t hc hk => ?_⟩
    rw [hf]
    exact (h.2 t (ha.tokens.current ▸ hc) hk).mono ha.gaps
  | tagOpen | endTagOpen | markupDeclarationOpen | rcdataLessThanSign | rawTextLessThanSign
  | selfClosingStartTag =>
    refine ⟨?_, ?_⟩
    · rw [ha.mark, hf]
      exact h.1
    · rw [ha.mark]
      exact ha.builds h.1 h.2
  | rcdataEndTagOpen | rcdataEndTagName | rawTextEndTagOpen | rawTextEndTagName =>
    refine ⟨?_, ?_⟩
    · rw [ha.mark, hf]
      exact h.1
    · rw [ha.mark]
      exact ha.holds h.1 h.2
  | attributeValueDoubleQuoted | attributeValueSingleQuoted =>
    exact ha.valueHere h
  | attributeValueUnquoted =>
    rcases h with h | ⟨hh, hc, h⟩
    · exact .inl (ha.valueHere h)
    · obtain ⟨hh', hc'⟩ := ha.atEnd ⟨hh, hc⟩
      exact .inr ⟨hh', hc', ha.buildsHere h⟩
  | bogusComment | commentStart | commentStartDash | comment | commentLessThanSign
  | commentLessThanSignBang | commentLessThanSignBangDash | commentLessThanSignBangDashDash
  | commentEndDash | commentEnd | commentEndBang | cdataSection | cdataSectionBracket
  | cdataSectionEnd =>
    refine ⟨?_, ha.buildsHere h.2⟩
    rw [ha.tokens.current]
    exact h.1
  | characterReference | namedCharacterReference | numericCharacterReference =>
    exact ha.inReference h
  | ambiguousAmpersand => exact ha.afterAmpersand h
  | decimalCharacterReferenceStart =>
    exact ⟨ha.inReference h.1, ha.charCode.trans h.2⟩
  | hexadecimalCharacterReferenceStart =>
    obtain ⟨x, hx, hr, hcode⟩ := h
    exact ⟨x, hx, ha.inReference hr, ha.charCode.trans hcode⟩
  | decimalCharacterReference =>
    obtain ⟨ds, hr, hd⟩ := h
    exact ⟨ds, ha.inReference hr, ha.readsDigits hd⟩
  | hexadecimalCharacterReference =>
    obtain ⟨x, ds, hx, hr, hd⟩ := h
    exact ⟨x, ds, hx, ha.inReference hr, ha.readsDigits hd⟩
  | interpolationStart =>
    obtain ⟨ho, hm, hb⟩ := h
    refine ⟨?_, ?_, ?_⟩
    · rw [ha.outerState]
      exact ho
    · rw [ha.mark, hf]
      exact hm
    · rw [ha.mark]
      exact ha.builds hm.le hb
  | interpolationData =>
    exact ⟨ha.surrounded h.1, ha.mustacheHere h.2⟩
  | interpolationEnd =>
    obtain ⟨ho, hm, hg, hb⟩ := h
    refine ⟨ha.surrounded ho, ?_, fun x hlo hhi => ?_, ?_⟩
    · rw [ha.mark, hf]
      exact hm
    · rw [hf] at hhi
      rw [ha.gaps x hhi]
      exact hg x (ha.mark ▸ hlo) hhi
    · rw [ha.mark]
      exact ha.mustache hm.le hb

end Agrees

end Lexer
end TemplateSyntax
