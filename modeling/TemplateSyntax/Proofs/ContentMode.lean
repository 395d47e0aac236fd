import TemplateSyntax.Proofs.Relocation

/-! # The content that a lexer is in

The text of an element that holds no tags is read in states of its own, which references and
interpolations interrupt and come back to.  `content` is what the lexer comes back to: the state of such
text, or that of content with tags.  No step goes from the one to text without tags, and as long as a
lexer is in such text, it hands out character data only, so that the name of the last start tag stays. -/

namespace TemplateSyntax

/-- The kinds of character data, and of the braces around an interpolation. -/
def TokenKind.inContent (k : TokenKind) : Bool :=
  k.isText || k == .interpolationStart || k == .interpolationEnd

/-- The kinds of the braces around an interpolation. -/
def TokenKind.isBrace (k : TokenKind) : Bool := k == .interpolationStart || k == .interpolationEnd

/-- The name of the last start tag behind one more token. -/
def Token.nameBehind (name : String) (t : Token) : String :=
  if t.kind = .tagOpen then t.value.toLower else name

/-- The name of the last start tag among some tokens, in lower case. -/
def lastOpened (ts : List Token) : String := ts.foldl Token.nameBehind ""

theorem lastOpened_append (ts ts' : List Token) :
    lastOpened (ts ++ ts') = ts'.foldl Token.nameBehind (lastOpened ts) :=
  List.foldl_append

theorem lastOpened_snoc (ts : List Token) (t : Token) :
    lastOpened (ts ++ [t]) = t.nameBehind (lastOpened ts) :=
  lastOpened_append ts [t]

/-! ## Tokens that are built -/

namespace TokenBuffer

variable {P : TokenKind → Prop} {l : Locator} {b b' : TokenBuffer} {name : String} {i : Nat}
  {k : TokenKind}

/-- The second buffer comes from the first one by starting tokens of the kinds `P`, finishing tokens,
and holding them back. -/
inductive Edited (P : TokenKind → Prop) (l : Locator) (b : TokenBuffer) : TokenBuffer → Prop
  | refl : Edited P l b b
  | startAt {b' : TokenBuffer} {k : TokenKind} {i : Nat} (h : Edited P l b b') (hk : P k) :
      Edited P l b (b'.startAt l k i)
  | finish {b' : TokenBuffer} {i : Nat} (h : Edited P l b b') : Edited P l b (b'.finish l i)
  | push {b' : TokenBuffer} {s : String} (h : Edited P l b b') : Edited P l b (b'.push s)
  | hold {b' : TokenBuffer} (h : Edited P l b b') : Edited P l b b'.hold
  | restore {b' : TokenBuffer} (h : Edited P l b b') : Edited P l b b'.restore
  | commitCurrent {b' : TokenBuffer} {i : Nat} (h : Edited P l b b') :
      Edited P l b (b'.commitCurrent l i)
  | commitHeldBack {b' : TokenBuffer} {i : Nat} (h : Edited P l b b') :
      Edited P l b (b'.commitHeldBack l i)

theorem Edited.append {s : String} (h : Edited P l b b') (hk : P k) :
    Edited P l b (b'.append l k s i) := by
  unfold TokenBuffer.append continueAs
  split
  · exact h.push
  · exact (h.startAt hk).push

theorem Edited.mono {P' : TokenKind → Prop} (h : Edited P l b b') (hp : ∀ k, P k → P' k) :
    Edited P' l b b' := by
  induction h with
  | refl => exact .refl
  | startAt _ hk ih => exact ih.startAt (hp _ hk)
  | finish _ ih => exact ih.finish
  | push _ ih => exact ih.push
  | hold _ ih => exact ih.hold
  | restore _ ih => exact ih.restore
  | commitCurrent _ ih => exact ih.commitCurrent
  | commitHeldBack _ ih => exact ih.commitHeldBack

/-- All tokens are of the kinds `P`. -/
structure Kinds (P : TokenKind → Prop) (b : TokenBuffer) : Prop where
  current : ∀ t, b.current = some t → P t.kind
  heldBack : ∀ t, b.heldBack = some t → P t.kind
  ready : ∀ t ∈ b.ready, P t.kind

namespace Kinds

theorem of_empty (hc : b.current = none) (hh : b.heldBack = none) (hr : b.ready = []) : b.Kinds P :=
  ⟨by simp [hc], by simp [hh], by simp [hr]⟩

theorem handOver (h : b.Kinds P) {t : PendingToken} (ht : P t.kind) : (b.handOver l t i).Kinds P where
  current := h.current
  heldBack := h.heldBack
  ready x hx := by
    rcases List.mem_append.1 hx with hx | hx
    · exact h.ready x hx
    · rw [List.mem_singleton.1 hx]
      exact ht

theorem dropCurrent (h : b.Kinds P) : ({ b with current := none } : TokenBuffer).Kinds P :=
  { h with current := nofun }

theorem dropHeldBack (h : b.Kinds P) : ({ b with heldBack := none } : TokenBuffer).Kinds P :=
  { h with heldBack := nofun }

theorem commitCurrent (h : b.Kinds P) : (b.commitCurrent l i).Kinds P := by
  unfold TokenBuffer.commitCurrent
  split
  · next t ht => exact h.dropCurrent.handOver (h.current t ht)
  · exact h

theorem commitHeldBack (h : b.Kinds P) : (b.commitHeldBack l i).Kinds P := by
  unfold TokenBuffer.commitHeldBack
  split
  · next t ht => exact h.dropHeldBack.handOver (h.heldBack t ht)
  · exact h

theorem finish (h : b.Kinds P) : (b.finish l i).Kinds P := by
  unfold TokenBuffer.finish
  split
  · next t ht => exact h.dropCurrent.handOver (h.current t ht)
  · exact { h with }

/-- Where only tokens of some kinds are started, there are no others. -/
theorem edited (h : b.Kinds P) (he : Edited P l b b') : b'.Kinds P := by
  induction he with
  | refl => exact h
  | startAt _ hk ih => exact { ih.commitCurrent with current := fun t ht => Option.some.inj ht ▸ hk }
  | finish _ ih => exact ih.finish
  | push _ ih =>
    refine { ih with current := fun t ht => ?_ }
    obtain ⟨t', ht', rfl⟩ := Option.map_eq_some_iff.1 ht
    exact ih.current t' ht'
  | hold _ ih => exact { ih with current := nofun, heldBack := ih.current }
  | restore _ ih => exact { ih with current := ih.heldBack, heldBack := nofun }
  | commitCurrent _ ih => exact ih.commitCurrent
  | commitHeldBack _ ih => exact ih.commitHeldBack

/-- Where no start tag is among the tokens, the name of the last one stays. -/
theorem lastStartTagName_edited (h : b.Kinds P) (hp : ¬ P .tagOpen) (he : Edited P l b b') :
    b'.lastStartTagName = b.lastStartTagName := by
  have hover : ∀ {b : TokenBuffer} {t : PendingToken} {i : Nat}, P t.kind →
      (b.handOver l t i).lastStartTagName = b.lastStartTagName := by
    intro b t i ht
    have hne : t.kind ≠ .tagOpen := fun heq => hp (heq ▸ ht)
    rw [TokenBuffer.handOver, if_neg hne]
  have hcurrent : ∀ {b : TokenBuffer} {i : Nat}, b.Kinds P →
      (b.commitCurrent l i).lastStartTagName = b.lastStartTagName := by
    intro b i hb
    unfold TokenBuffer.commitCurrent
    split
    · next t ht => exact hover (hb.current t ht)
    · rfl
  induction he with
  | refl => rfl
  | startAt he _ ih => exact (hcurrent (h.edited he)).trans ih
  | finish he ih =>
    unfold TokenBuffer.finish
    split
    · next t ht => exact (hover ((h.edited he).current t ht)).trans ih
    · exact ih
  | push _ ih | hold _ ih | restore _ ih => exact ih
  | commitCurrent he ih => exact (hcurrent (h.edited he)).trans ih
  | commitHeldBack he ih =>
    unfold TokenBuffer.commitHeldBack
    split
    · next t ht => exact (hover ((h.edited he).heldBack t ht)).trans ih
    · exact ih

end Kinds

/-- All tokens are character data, and the last start tag has the name. -/
structure Inside (name : String) (b : TokenBuffer) : Prop
    extends Kinds (fun k => k.inContent = true) b where
  last : b.lastStartTagName = name

/-- Where only character data is started, there is nothing else. -/
theorem Inside.edited (h : b.Inside name) (he : Edited (fun k => k.inContent = true) l b b') :
    b'.Inside name :=
  { h.toKinds.edited he with
    last := (h.toKinds.lastStartTagName_edited (by decide) he).trans h.last }

/-- The name on record is that of the last start tag, be it taken or ready. -/
def Names (taken : List Token) (b : TokenBuffer) : Prop :=
  b.lastStartTagName = lastOpened (taken ++ b.ready)

theorem Names.handOver {taken : List Token} (h : b.Names taken) (t : PendingToken) :
    (b.handOver l t i).Names taken := by
  show (if t.kind = .tagOpen then t.value.toLower else b.lastStartTagName) =
    lastOpened (taken ++ (b.ready ++ [l.token t i]))
  rw [← List.append_assoc, lastOpened_snoc, h]
  rfl

/-- Whatever is done to the tokens, the name on record stays that of the last start tag. -/
theorem Names.edited {taken : List Token} (h : b.Names taken) (he : Edited P l b b') :
    b'.Names taken := by
  have hcurrent : ∀ {b : TokenBuffer} {i : Nat}, b.Names taken → (b.commitCurrent l i).Names taken := by
    intro b i hb
    unfold TokenBuffer.commitCurrent
    split
    · exact Names.handOver (b := { b with current := none }) hb _
    · exact hb
  induction he with
  | refl => exact h
  | startAt _ _ ih => exact hcurrent ih
  | @finish b' i _ ih =>
    unfold TokenBuffer.finish
    split
    · exact Names.handOver (b := { b' with current := none }) ih _
    · exact ih
  | push _ ih | hold _ ih | restore _ ih => exact ih
  | commitCurrent _ ih => exact hcurrent ih
  | @commitHeldBack b' i _ ih =>
    unfold TokenBuffer.commitHeldBack
    split
    · exact Names.handOver (b := { b' with heldBack := none }) ih _
    · exact ih

end TokenBuffer

/-! ## Where states belong -/

namespace LexState

/-- The content around an interpolation, behind which the lexer goes on in `outer`. -/
def outerContent (outer : LexState) : LexState := if outer = .rcdata then .rcdata else .data

/-- The states that references are read in. -/
def inReference : LexState → Bool
  | .characterReference | .namedCharacterReference | .ambiguousAmpersand
  | .numericCharacterReference | .hexadecimalCharacterReferenceStart
  | .decimalCharacterReferenceStart | .hexadecimalCharacterReference
  | .decimalCharacterReference => true
  | _ => false

/-- The content that a state belongs to, where the lexer goes on in `back` behind a reference and in
`outer` behind an interpolation. -/
def content (outer back : LexState) : LexState → LexState
  | .rcdata | .rcdataLessThanSign | .rcdataEndTagOpen | .rcdataEndTagName => .rcdata
  | .rawText | .rawTextLessThanSign | .rawTextEndTagOpen | .rawTextEndTagName => .rawText
  | .characterReference | .namedCharacterReference | .ambiguousAmpersand
  | .numericCharacterReference | .hexadecimalCharacterReferenceStart
  | .decimalCharacterReferenceStart | .hexadecimalCharacterReference
  | .decimalCharacterReference =>
    if back = .rcdata then .rcdata
    else if back = .interpolationData then outer.outerContent
    else .data
  | .interpolationStart | .interpolationData | .interpolationEnd => outer.outerContent
  | _ => .data

/-- All states of a reference belong to the same content. -/
theorem content_of_inReference {outer back s : LexState} (h : s.inReference = true) :
    content outer back s = content outer back .characterReference := by
  cases s <;> first | rfl | exact absurd h (by decide)

/-- A reference belongs to the content that it stands in. -/
theorem content_back {outer back : LexState} (h : back.hasReferences = true) :
    content outer back back = content outer back .characterReference := by
  cases back with
  | data | rcdata | attributeValueDoubleQuoted | attributeValueSingleQuoted
  | attributeValueUnquoted | interpolationData => rfl
  | _ => exact absurd h (by decide)

/-- So does an interpolation. -/
theorem content_outer {outer back : LexState} (h : outer = .data ∨ outer = .rcdata) :
    content outer back outer = outer.outerContent := by
  rcases h with rfl | rfl <;> rfl

theorem isText_textKind (s : LexState) : s.textKind.isText = true := by
  cases s <;> rfl

theorem inContent_textKind (s : LexState) : s.textKind.inContent = true := by
  cases s <;> rfl

end LexState

namespace Lexer

variable {l l' : Lexer} {name : String}

/-- The content that the lexer is in. -/
def content (l : Lexer) : LexState := LexState.content l.outerState l.returnState l.state

/-- The lexer goes back to where it came from. -/
structure Returns (l : Lexer) : Prop where
  back : l.returnState.hasReferences = true
  outer : l.outerState = .data ∨ l.outerState = .rcdata

theorem returns_ofChars (cs : List Char) (locator : Locator) (tracing : Bool) :
    (ofChars cs locator tracing).Returns := ⟨rfl, .inl rfl⟩

/-- What a step does to the content: it stays there, and starts character data only if that is text
without tags, or it gets to content with tags. -/
structure Steps (l l' : Lexer) : Prop where
  locator : l'.locator = l.locator
  returns : l'.Returns
  content : l'.content = l.content ∨ l'.content = .data
  edited : l.buffer.Edited (fun k => l'.content ≠ .data → k.inContent = true) l.locator l'.buffer

namespace Steps

/-- A step in content with tags. -/
theorem leaves (hl : l'.locator = l.locator) (hr : l'.Returns) (hc : l'.content = .data)
    (he : l.buffer.Edited (fun _ => True) l.locator l'.buffer) : Steps l l' :=
  ⟨hl, hr, .inr hc, he.mono fun _ _ hne => absurd hc hne⟩

/-- A step that stays in its content, whatever that is. -/
theorem stays (hl : l'.locator = l.locator) (hr : l'.Returns) (hc : l'.content = l.content)
    (he : l.buffer.Edited (fun k => k.inContent = true) l.locator l'.buffer) : Steps l l' :=
  ⟨hl, hr, .inl hc, he.mono fun _ hk _ => hk⟩

end Steps

open TokenBuffer (Edited)
open LexState (inContent_textKind isText_textKind)

/-! ## Content with tags -/

section
variable (h : l.Returns)
include h

theorem onData_steps (c : Option Char) : Steps l (l.onData c) := by
  unfold onData
  split
  · exact .leaves rfl ⟨h.back, h.outer⟩ rfl .refl
  · exact .leaves rfl ⟨h.back, h.outer⟩ rfl .refl
  · exact .leaves rfl ⟨rfl, h.outer⟩ rfl .refl
  · split
    · exact .leaves rfl ⟨h.back, .inl rfl⟩ rfl .refl
    · exact .leaves rfl ⟨h.back, h.outer⟩ rfl (.append .refl trivial)
  · exact .leaves rfl ⟨h.back, h.outer⟩ rfl (.append .refl trivial)

end

/-! ## Text without tags -/

/-- The states that text of an element without tags is read in. -/
inductive ReadsText : LexState → Prop
  | rcdata : ReadsText .rcdata
  | rawText : ReadsText .rawText

section
variable (h : l.Returns) {s : LexState} (hs : ReadsText s)
include h

theorem onRcdata_steps (hc : l.content = .rcdata) (c : Option Char) : Steps l (l.onRcdata c) := by
  unfold onRcdata
  split
  · exact .stays rfl ⟨h.back, h.outer⟩ hc.symm .refl
  · exact .stays rfl ⟨h.back, h.outer⟩ hc.symm .refl
  · exact .stays rfl ⟨rfl, h.outer⟩ hc.symm .refl
  · split
    · exact .stays rfl ⟨h.back, .inr rfl⟩ hc.symm .refl
    · exact .stays rfl ⟨h.back, h.outer⟩ hc.symm (.append .refl rfl)
  · exact .stays rfl ⟨h.back, h.outer⟩ hc.symm (.append .refl (by split <;> rfl))

theorem onRawText_steps (hc : l.content = .rawText) (c : Option Char) : Steps l (l.onRawText c) := by
  unfold onRawText
  split
  · exact .stays rfl ⟨h.back, h.outer⟩ hc.symm .refl
  · exact .stays rfl ⟨h.back, h.outer⟩ hc.symm .refl
  · exact .stays rfl ⟨h.back, h.outer⟩ hc.symm (.append .refl (by split <;> rfl))

include hs

omit h in
/-- The states of text without tags belong to it. -/
theorem content_of_readsText (outer back : LexState) : LexState.content outer back s = s ∧
    LexState.content outer back (textEndTagOpen s) = s ∧
    LexState.content outer back (textEndTagName s) = s := by
  cases hs <;> exact ⟨rfl, rfl, rfl⟩

theorem onTextLessThanSign_steps (hc : l.content = s) (c : Option Char) :
    Steps l (l.onTextLessThanSign s c) := by
  obtain ⟨hself, hopen, -⟩ := content_of_readsText hs l.outerState l.returnState
  unfold onTextLessThanSign
  split
  · exact .stays rfl ⟨h.back, h.outer⟩ (hopen.trans hc.symm) (.hold .refl)
  · exact .stays rfl ⟨h.back, h.outer⟩ (hself.trans hc.symm) (.append .refl (inContent_textKind s))

/-- Text that was held back is gone on with. -/
theorem restoreHeldBack_steps (hc : l.content = s) :
    Steps l ((l.restoreHeldBack s).reconsume s) :=
  .stays rfl ⟨h.back, h.outer⟩ ((content_of_readsText hs _ _).1.trans hc.symm)
    (.append (.restore .refl) (inContent_textKind s))

theorem onTextEndTagOpen_steps (hc : l.content = s) (c : Option Char) :
    Steps l (l.onTextEndTagOpen s c) := by
  unfold onTextEndTagOpen
  split
  · split
    · exact .stays rfl ⟨h.back, h.outer⟩ ((content_of_readsText hs _ _).2.2.trans hc.symm) .refl
    · exact restoreHeldBack_steps h hs hc
  · exact restoreHeldBack_steps h hs hc

/-- Only the end tag of the element leads out of its text. -/
theorem onTextEndTagName_steps (hc : l.content = s) (c : Option Char) :
    Steps l (l.onTextEndTagName s c) := by
  have hpromote : l.buffer.Edited (fun _ => True) l.locator l.promoteHeldBack.buffer :=
    .push (.startAt (.commitHeldBack .refl) trivial)
  unfold onTextEndTagName
  split
  · split
    · exact .leaves rfl ⟨h.back, h.outer⟩ rfl (.push (.startAt hpromote trivial))
    · split
      · exact .leaves rfl ⟨h.back, h.outer⟩ rfl hpromote
      · split
        · exact .leaves rfl ⟨h.back, h.outer⟩ rfl (.finish (.startAt hpromote trivial))
        · split
          · exact .stays rfl ⟨h.back, h.outer⟩ ((content_of_readsText hs _ _).2.2.trans hc.symm)
              .refl
          · exact restoreHeldBack_steps h hs hc
  · exact restoreHeldBack_steps h hs hc

end

/-! ## References -/

/-- What a reference leaves as it is. -/
structure Refers (l l' : Lexer) : Prop where
  locator : l'.locator = l.locator
  back : l'.returnState = l.returnState
  outer : l'.outerState = l.outerState
  edited : l.buffer.Edited (fun k => k.isText = true) l.locator l'.buffer

theorem Refers.goto (h : Refers l l') (s : LexState) : Refers l (l'.goto s) := { h with }

theorem Refers.reconsume (h : Refers l l') (s : LexState) : Refers l (l'.reconsume s) := { h with }

theorem refers_flushReference (l : Lexer) (s : String) : Refers l (l.flushReference s) := by
  refine ⟨rfl, rfl, rfl, ?_⟩
  unfold flushReference
  dsimp only
  split
  · exact .push .refl
  · exact .append .refl (isText_textKind _)

theorem refers_flushRaw (l : Lexer) (stop : Nat) : Refers l (l.flushRaw stop) :=
  { refers_flushReference (l.checkReference stop) _ with }

theorem refers_flushDecoded (l : Lexer) (decoded : String) (stop : Nat) :
    Refers l (l.flushDecoded decoded stop) := by
  unfold flushDecoded
  dsimp only
  split
  · exact { refers_flushReference (l.checkReference stop) decoded with }
  · exact refers_flushRaw l stop

/-- How a reference by name ends, which `onNamedCharacterReference` chooses. -/
theorem refers_flushName (l : Lexer) (found : NamedReference.Found) (stop : Nat) (goesOn : Bool) :
    Refers l
      (if l.returnState.isAttributeValue && !found.terminated && goesOn then l.flushRaw stop
      else if found.terminated then l.flushDecoded found.value stop
      else (l.reportAt .missingSemicolonAfterCharacterReference stop).flushDecoded found.value
        stop) := by
  split
  · exact refers_flushRaw l stop
  · split
    · exact refers_flushDecoded l found.value stop
    · exact { refers_flushDecoded
        (l.reportAt .missingSemicolonAfterCharacterReference stop) found.value stop with }

theorem refers_finishNumericReference (l : Lexer) (stop : Nat) :
    Refers l (l.finishNumericReference stop) := by
  unfold finishNumericReference
  split
  · next cause _ => exact { refers_flushDecoded (l.report cause) _ stop with }
  · exact refers_flushDecoded l _ stop

/-- A step in a reference: it goes on, or back to where it stands. -/
inductive ReferenceStep (l l' : Lexer) : Prop
  | goesOn (h : Refers l l') (hs : l'.state.inReference = true)
  | goesBack (h : Refers l l') (hs : l'.state = l.returnState)

theorem onCharacterReference_referenceStep (l : Lexer) (c : Option Char) :
    ReferenceStep l (l.onCharacterReference c) := by
  have hflush := refers_flushReference l "&"
  unfold onCharacterReference
  split
  · exact .goesOn ⟨rfl, rfl, rfl, .refl⟩ rfl
  · split
    · exact .goesOn ⟨rfl, rfl, rfl, .refl⟩ rfl
    · exact .goesBack { hflush with } rfl
  · exact .goesBack { hflush with } rfl

theorem onNamedCharacterReference_referenceStep (l : Lexer) :
    ReferenceStep l l.onNamedCharacterReference := by
  unfold onNamedCharacterReference
  split
  · exact .goesOn { refers_flushReference l "&" with } rfl
  · next found _ =>
    exact .goesBack { refers_flushName l found (l.cursor.start + found.length) _ with } rfl

theorem onAmbiguousAmpersand_referenceStep (l : Lexer) (c : Option Char) :
    ReferenceStep l (l.onAmbiguousAmpersand c) := by
  unfold onAmbiguousAmpersand
  split
  · exact .goesBack ⟨rfl, rfl, rfl, .refl⟩ rfl
  · split
    · exact .goesOn { refers_flushReference l _ with } rfl
    · exact .goesBack ⟨rfl, rfl, rfl, .refl⟩ rfl
  · exact .goesBack ⟨rfl, rfl, rfl, .refl⟩ rfl

theorem onNumericCharacterReference_referenceStep (l : Lexer) (c : Option Char) :
    ReferenceStep l (l.onNumericCharacterReference c) := by
  unfold onNumericCharacterReference
  split <;> exact .goesOn ⟨rfl, rfl, rfl, .refl⟩ rfl

section
variable {digits : LexState} (hd : digits.inReference = true)
include hd

theorem onNumericReferenceStart_referenceStep (l : Lexer) (isDigit : Char → Bool) (c : Option Char) :
    ReferenceStep l (l.onNumericReferenceStart isDigit digits c) := by
  unfold onNumericReferenceStart
  split
  · exact .goesOn ⟨rfl, rfl, rfl, .refl⟩ hd
  · exact .goesBack { refers_flushRaw
      (l.report .absenceOfDigitsInNumericCharacterReference) _ with } rfl

theorem onNumericReferenceDigits_referenceStep (l : Lexer) (isDigit : Char → Bool) (radix : Nat)
    (c : Option Char) : ReferenceStep l (l.onNumericReferenceDigits isDigit radix digits c) := by
  have hfinish := refers_finishNumericReference l l.cursor.index
  have hmissing : Refers l ((l.report .missingSemicolonAfterCharacterReference).finishNumericReference
      l.cursor.start) :=
    { refers_finishNumericReference (l.report .missingSemicolonAfterCharacterReference) _ with }
  unfold onNumericReferenceDigits
  split
  · split
    · exact .goesOn ⟨rfl, rfl, rfl, .refl⟩ hd
    · split
      · exact .goesBack (hfinish.goto _) rfl
      · exact .goesBack (hmissing.reconsume _) rfl
  · exact .goesBack (hmissing.reconsume _) rfl

end

/-- A step in a reference stays in the reference or leads back. -/
theorem step_referenceStep (hs : l.state.inReference = true) : ReferenceStep l l.step := by
  unfold step
  dsimp only
  split
  case h_37 => exact onCharacterReference_referenceStep l _
  case h_38 => exact onNamedCharacterReference_referenceStep l
  case h_39 => exact onAmbiguousAmpersand_referenceStep l _
  case h_40 => exact onNumericCharacterReference_referenceStep l _
  case h_41 | h_42 => exact onNumericReferenceStart_referenceStep rfl l _ _
  case h_43 | h_44 => exact onNumericReferenceDigits_referenceStep rfl l _ _ _
  all_goals
    next heq => exact absurd (heq ▸ hs) (by decide)

theorem ReferenceStep.steps (h : ReferenceStep l l') (hr : l.Returns) (hs : l.state.inReference = true) :
    Steps l l' := by
  cases h with
  | goesOn h hs' =>
    refine .stays h.locator ⟨h.back ▸ hr.back, h.outer ▸ hr.outer⟩ ?_ (h.edited.mono fun k hk => ?_)
    · rw [content, content, h.back, h.outer, LexState.content_of_inReference hs,
        LexState.content_of_inReference hs']
    · rw [TokenKind.inContent, hk, Bool.true_or, Bool.true_or]
  | goesBack h hs' =>
    refine .stays h.locator ⟨h.back ▸ hr.back, h.outer ▸ hr.outer⟩ ?_ (h.edited.mono fun k hk => ?_)
    · rw [content, content, h.back, h.outer, hs', LexState.content_of_inReference hs,
        LexState.content_back hr.back]
    · rw [TokenKind.inContent, hk, Bool.true_or, Bool.true_or]

/-! ## Interpolations -/

section
variable (h : l.Returns)
include h

theorem onInterpolationStart_steps (hs : l.content = l.outerState.outerContent) (c : Option Char) :
    Steps l (l.onInterpolationStart c) := by
  unfold onInterpolationStart
  split
  · exact .stays rfl ⟨h.back, h.outer⟩ hs.symm (.finish (.push (.startAt .refl (by rfl))))
  · exact .stays rfl ⟨h.back, h.outer⟩ ((LexState.content_outer h.outer).trans hs.symm)
      (.append .refl (inContent_textKind _))

theorem onInterpolationData_steps (hs : l.content = l.outerState.outerContent) (c : Option Char) :
    Steps l (l.onInterpolationData c) := by
  unfold onInterpolationData
  split
  · exact .stays rfl ⟨h.back, h.outer⟩ hs.symm .refl
  · exact .stays rfl ⟨rfl, h.outer⟩ hs.symm .refl
  · exact .stays rfl ⟨h.back, h.outer⟩ ((LexState.content_outer h.outer).trans hs.symm) .refl
  · exact .stays rfl ⟨h.back, h.outer⟩ hs.symm (.append .refl (by split <;> rfl))

theorem onInterpolationEnd_steps (hs : l.content = l.outerState.outerContent) (c : Option Char) :
    Steps l (l.onInterpolationEnd c) := by
  unfold onInterpolationEnd
  split
  · exact .stays rfl ⟨h.back, h.outer⟩ ((LexState.content_outer h.outer).trans hs.symm)
      (.finish (.push (.startAt .refl (by rfl))))
  · exact .stays rfl ⟨h.back, h.outer⟩ hs.symm (.append .refl rfl)

end

/-! ## All states -/

theorem content_of_state {s : LexState} (hs : l.state = s) :
    l.content = LexState.content l.outerState l.returnState s := by
  rw [content, hs]

/-- Every step stays in its content or gets to content with tags. -/
theorem step_steps (h : l.Returns) : Steps l l.step := by
  by_cases hreference : l.state.inReference = true
  · exact (step_referenceStep hreference).steps h hreference
  unfold step
  dsimp only
  split
  case h_1 => exact onData_steps h _
  case h_2 hs => exact onRcdata_steps h (content_of_state hs) _
  case h_3 hs => exact onRawText_steps h (content_of_state hs) _
  case h_7 hs => exact onTextLessThanSign_steps h .rcdata (content_of_state hs) _
  case h_8 hs => exact onTextEndTagOpen_steps h .rcdata (content_of_state hs) _
  case h_9 hs => exact onTextEndTagName_steps h .rcdata (content_of_state hs) _
  case h_10 hs => exact onTextLessThanSign_steps h .rawText (content_of_state hs) _
  case h_11 hs => exact onTextEndTagOpen_steps h .rawText (content_of_state hs) _
  case h_12 hs => exact onTextEndTagName_steps h .rawText (content_of_state hs) _
  case h_45 hs => exact onInterpolationStart_steps h (content_of_state hs) _
  case h_46 hs => exact onInterpolationData_steps h (content_of_state hs) _
  case h_47 hs => exact onInterpolationEnd_steps h (content_of_state hs) _
  case h_37 hs | h_38 hs | h_39 hs | h_40 hs | h_41 hs | h_42 hs | h_43 hs | h_44 hs =>
    exact absurd (by rw [hs]; rfl) hreference
  -- the states of tags, comments and CDATA sections lead to one another and to content with tags
  all_goals
    simp only [onTagOpen, onEndTagOpen, onTagName, onBeforeAttributeName, onAttributeName,
      onAfterAttributeName, onBeforeAttributeValue, onAttributeValueQuoted,
      onAttributeValueUnquoted, onAfterAttributeValueQuoted, onSelfClosingStartTag,
      onBogusComment, onMarkupDeclarationOpen, onCommentStart, onCommentStartDash, onComment,
      onCommentLessThanSign, onCommentLessThanSignBang, onCommentLessThanSignBangDash,
      onCommentLessThanSignBangDashDash, onCommentEndDash, onCommentEnd, onCommentEndBang,
      onCdataSection, onCdataSectionBracket, onCdataSectionEnd]
    repeat' split
  all_goals
    refine .leaves rfl ⟨?_, h.outer⟩ rfl ?_
    · first
        | exact h.back
        | rfl
    · first
        | exact .refl
        | exact .push .refl
        | exact .finish .refl
        | exact .append .refl trivial
        | exact .startAt .refl trivial
        | exact .push (.startAt .refl trivial)
        | exact .finish (.startAt .refl trivial)

/-! ## Double braces -/

theorem isBrace_textKind (s : LexState) : s.textKind.isBrace = false := by
  cases s <;> rfl

/-- Only behind the first of two braces a token for both is started. -/
theorem step_edited (h₁ : l.state ≠ .interpolationStart) (h₂ : l.state ≠ .interpolationEnd) :
    l.buffer.Edited (fun k => k.isBrace = false) l.locator l.step.buffer := by
  have hblank : ∀ (k : TokenKind) (c : Char), k.isBrace = false →
      (if CharClass.isBlank c then TokenKind.whitespace else k).isBrace = false := by
    intro k c hk
    split
    · rfl
    · exact hk
  have htext : ∀ k : TokenKind, k.isText = true → k.isBrace = false := by
    intro k hk
    cases k <;> first | rfl | exact absurd hk (by decide)
  by_cases hreference : l.state.inReference = true
  · cases step_referenceStep hreference with
    | goesOn h _ | goesBack h _ => exact h.edited.mono htext
  unfold step
  dsimp only
  split
  case h_37 hs | h_38 hs | h_39 hs | h_40 hs | h_41 hs | h_42 hs | h_43 hs | h_44 hs =>
    exact absurd (by rw [hs]; rfl) hreference
  case h_45 hs => exact absurd hs h₁
  case h_47 hs => exact absurd hs h₂
  all_goals
    simp only [onData, onRcdata, onRawText, onTextLessThanSign, onTextEndTagOpen, onTextEndTagName,
      onTagOpen, onEndTagOpen, onTagName, onBeforeAttributeName, onAttributeName,
      onAfterAttributeName, onBeforeAttributeValue, onAttributeValueQuoted,
      onAttributeValueUnquoted, onAfterAttributeValueQuoted, onSelfClosingStartTag,
      onBogusComment, onMarkupDeclarationOpen, onCommentStart, onCommentStartDash, onComment,
      onCommentLessThanSign, onCommentLessThanSignBang, onCommentLessThanSignBangDash,
      onCommentLessThanSignBangDashDash, onCommentEndDash, onCommentEnd, onCommentEndBang,
      onCdataSection, onCdataSectionBracket, onCdataSectionEnd, onInterpolationData]
    repeat' split
  all_goals
    first
      | exact .refl
      | exact .hold .refl
      | exact .push .refl
      | exact .finish .refl
      | exact .append .refl (by rfl)
      | exact .append .refl (hblank _ _ (by rfl))
      | exact .append (.restore .refl) (isBrace_textKind _)
      | exact .startAt .refl (by rfl)
      | exact .push (.startAt .refl (by rfl))
      | exact .finish (.startAt .refl (by rfl))
      | exact .push (.startAt (.commitHeldBack .refl) (by rfl))
      | exact .push (.startAt (.push (.startAt (.commitHeldBack .refl) (by rfl))) (by rfl))
      | exact .finish (.startAt (.push (.startAt (.commitHeldBack .refl) (by rfl))) (by rfl))

/-! ## Pulls -/

/-- Where the lexer takes up a character, only the cursor and what it reports are new. -/
theorem entered_parts (l : Lexer) : l.entered.locator = l.locator ∧ l.entered.buffer = l.buffer ∧
    l.entered.state = l.state ∧ l.entered.returnState = l.returnState ∧
    l.entered.outerState = l.outerState := by
  unfold entered advance moveOn
  dsimp only
  repeat' split
  all_goals exact ⟨rfl, rfl, rfl, rfl, rfl⟩

theorem advanceStep_steps (h : l.Returns) : Steps l l.advanceStep := by
  obtain ⟨hlocator, hbuffer, hstate, hback, houter⟩ := l.entered_parts
  have hcontent : l.entered.content = l.content := by
    rw [content, content, hstate, hback, houter]
  have hs := step_steps (l := l.entered) ⟨hback ▸ h.back, houter ▸ h.outer⟩
  have hedited := hs.edited
  rw [hbuffer, hlocator] at hedited
  rw [advanceStep_eq]
  split
  · have hfinish : (l.entered.step.buffer.commitHeldBack l.entered.step.locator
        l.entered.step.cursor.index).commitCurrent l.entered.step.locator
        l.entered.step.cursor.index = l.entered.step.finish.buffer := rfl
    rw [hs.locator, hlocator] at hfinish
    exact ⟨hs.locator.trans hlocator, ⟨hs.returns.back, hs.returns.outer⟩, hcontent ▸ hs.content,
      hfinish ▸ .commitCurrent (.commitHeldBack hedited)⟩
  · exact ⟨hs.locator.trans hlocator, ⟨hs.returns.back, hs.returns.outer⟩, hcontent ▸ hs.content,
      hedited⟩

/-- What a pull does to the content, and to the tokens. -/
structure Pulls (l : Lexer) (handed : Option Token × Lexer) : Prop where
  returns : handed.2.Returns
  content : handed.2.content = l.content ∨ handed.2.content = .data
  inside : ∀ name, handed.2.content ≠ .data → l.buffer.Inside name →
    handed.2.buffer.Inside name ∧ ∀ t ∈ handed.1, t.kind.inContent = true
  names : ∀ taken, l.buffer.Names taken → handed.2.buffer.Names (taken ++ handed.1.toList)

theorem pulls_ready (h : l.Returns) {t : Token} {ready : List Token}
    (hr : l.buffer.ready = t :: ready) :
    Pulls l (some t, { l with buffer := { l.buffer with ready } }) where
  returns := ⟨h.back, h.outer⟩
  content := .inl rfl
  inside name _ hi :=
    ⟨{ hi with ready := fun x hx => hi.ready x (hr ▸ List.mem_cons_of_mem t hx) },
      fun x hx => Option.some.inj hx ▸ hi.ready t (hr ▸ List.mem_cons_self ..)⟩
  names taken hn := by
    show l.buffer.lastStartTagName = lastOpened ((taken ++ [t]) ++ ready)
    rw [hn, hr, List.append_assoc, List.singleton_append]

/-- Nothing is left to hand out. -/
theorem pulls_nothing (hc : l'.content = l.content) (hb : l'.buffer = l.buffer)
    (hr : l'.Returns) : Pulls l (none, l') where
  returns := hr
  content := .inl hc
  inside name _ hi := ⟨hb ▸ hi, nofun⟩
  names taken hn := by
    show l'.buffer.Names (taken ++ [])
    rw [hb, List.append_nil]
    exact hn

theorem Pulls.behind {handed : Option Token × Lexer} (h : Pulls l' handed) (hs : Steps l l') :
    Pulls l handed where
  returns := h.returns
  content := h.content.elim (fun heq => heq ▸ hs.content) .inr
  inside name hne hi := by
    have heq : handed.2.content = l'.content := h.content.resolve_right hne
    exact h.inside name hne (hi.edited (hs.edited.mono fun _ hk => hk (heq ▸ hne)))
  names taken hn := h.names taken (hn.edited hs.edited)

theorem run_pulls (h : l.Returns) (fuel : Nat) : Pulls l (l.run fuel) := by
  induction fuel generalizing l with
  | zero =>
    unfold Lexer.run
    split
    · next hr => exact pulls_ready h hr
    · split
      · exact pulls_nothing rfl rfl h
      · exact pulls_nothing rfl rfl ⟨h.back, h.outer⟩
  | succ fuel ih =>
    unfold Lexer.run
    split
    · next hr => exact pulls_ready h hr
    · split
      · exact pulls_nothing rfl rfl h
      · have hs := advanceStep_steps h
        exact (ih hs.returns).behind hs

/-- A lexer in text without tags hands out character data as long as it is there. -/
theorem pull_pulls (h : l.Returns) : Pulls l l.pull := run_pulls h _

end Lexer
end TemplateSyntax
