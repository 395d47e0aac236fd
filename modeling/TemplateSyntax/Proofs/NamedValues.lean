import Mathlib.Data.List.Induction
import TemplateSyntax.Proofs.BraceTokens
import TemplateSyntax.Proofs.Lexing

/-! # Values stand behind names

The value of an attribute is read behind its name only: between the two there are a `=` and blanks.  A name
waits for its value as long as only such tokens follow it.  In the states that a value can come next in, a
name waits, and a step in any other state starts no value, so that all values among the tokens stand behind
names that wait for them. -/

namespace TemplateSyntax

/-! ## Names that wait -/

namespace TokenKind

variable {ks ks' : List TokenKind} {k : TokenKind}

/-- Whether a name waits for its value behind a token of this kind. -/
def waits (waiting : Bool) : TokenKind → Bool
  | .identifier => true
  | .association | .whitespace => waiting
  | _ => false

/-- Whether a name waits for its value behind tokens of some kinds. -/
def waitsBehind (ks : List TokenKind) : Bool := ks.foldl waits false

theorem waitsBehind_concat (ks : List TokenKind) (k : TokenKind) :
    waitsBehind (ks ++ [k]) = k.waits (waitsBehind ks) :=
  List.foldl_concat ..

/-- A token that no name waits behind is a fresh start. -/
theorem waitsBehind_append_cons (hk : ∀ w, k.waits w = false) :
    waitsBehind (ks ++ k :: ks') = waitsBehind (k :: ks') := by
  rw [waitsBehind, List.foldl_append, List.foldl_cons, hk, waitsBehind, List.foldl_cons, hk]

/-- Behind a `=` and blanks the name waits as before. -/
theorem waitsBehind_append (h : waitsBehind ks = true)
    (hks' : ∀ k ∈ ks', k = .association ∨ k = .whitespace) : waitsBehind (ks ++ ks') = true := by
  induction ks' using List.reverseRecOn with
  | nil => rwa [List.append_nil]
  | append_singleton ks' k ih =>
    obtain ⟨hfront, hk⟩ := List.forall_mem_append.1 hks'
    rw [← List.append_assoc, waitsBehind_concat]
    rcases hk k (List.mem_singleton_self k) with rfl | rfl <;> exact ih hfront

/-- Without the comments a name that waits does so as well. -/
theorem waitsBehind_filter (h : waitsBehind ks = true) :
    waitsBehind (ks.filter fun k => !k.isComment) = true := by
  induction ks using List.reverseRecOn with
  | nil => exact h
  | append_singleton ks k ih =>
    rw [waitsBehind_concat] at h
    rw [List.filter_append]
    cases k with
    | identifier => exact waitsBehind_concat _ _
    | association | whitespace => exact (waitsBehind_concat _ _).trans (ih h)
    | _ => cases h

/-- Each value stands behind a name that waits for it. -/
def ValuesNamed (ks : List TokenKind) : Prop :=
  ∀ front back, ks = front ++ .literal :: back → waitsBehind front = true

namespace ValuesNamed

theorem nil : ValuesNamed [] := by
  intro front back h
  simp at h

theorem concat (h : ValuesNamed ks) (hk : k = .literal → waitsBehind ks = true) :
    ValuesNamed (ks ++ [k]) := by
  intro front back heq
  rcases List.eq_nil_or_concat back with rfl | ⟨back, k', rfl⟩
  · obtain ⟨rfl, hlast⟩ := List.append_inj' heq rfl
    exact hk (List.singleton_inj.1 hlast)
  · rw [List.concat_eq_append, ← List.cons_append, ← List.append_assoc] at heq
    exact h front back (List.append_inj' heq rfl).1

/-- More tokens come, none of which is a value. -/
theorem append (h : ValuesNamed ks) (hks' : ∀ k ∈ ks', k ≠ .literal) : ValuesNamed (ks ++ ks') := by
  induction ks' using List.reverseRecOn with
  | nil => rwa [List.append_nil]
  | append_singleton ks' k ih =>
    obtain ⟨hfront, hk⟩ := List.forall_mem_append.1 hks'
    rw [← List.append_assoc]
    exact (ih hfront).concat fun heq => absurd heq (hk k (List.mem_singleton_self k))

theorem front (h : ValuesNamed (ks ++ ks')) : ValuesNamed ks := by
  rintro front back rfl
  exact h front (back ++ ks') (by simp)

/-- From a fresh start on, the values have their names there. -/
theorem back (h : ValuesNamed (ks ++ k :: ks')) (hk : ∀ w, k.waits w = false) (hne : k ≠ .literal) :
    ValuesNamed (k :: ks') := by
  rintro (_ | ⟨k', front⟩) back heq
  · exact absurd (List.cons.inj heq).1 hne
  · obtain ⟨rfl, rfl⟩ := List.cons.inj heq
    rw [← waitsBehind_append_cons hk]
    exact h (ks ++ k :: front) back (by simp)

theorem filter (h : ValuesNamed ks) : ValuesNamed (ks.filter fun k => !k.isComment) := by
  induction ks using List.reverseRecOn with
  | nil => exact nil
  | append_singleton ks k ih =>
    rw [List.filter_append, List.filter_singleton]
    cases hc : k.isComment with
    | true => exact (List.append_nil (ks.filter fun k => !k.isComment)).symm ▸ ih h.front
    | false => exact (ih h.front).concat fun hk => waitsBehind_filter (h ks [] (by rw [hk]))

end ValuesNamed
end TokenKind

open TokenKind (waitsBehind ValuesNamed waitsBehind_append)

/-! ## Tokens that are built -/

namespace TokenBuffer

variable {P : TokenKind → Prop} {l : Locator} {b b' : TokenBuffer} {k : TokenKind} {i : Nat} {s : String}

/-- The kinds of the tokens that are ready or being built, in the order of the text. -/
def kinds (b : TokenBuffer) : List TokenKind :=
  b.ready.map Token.kind ++ (b.heldBack.toList ++ b.current.toList).map PendingToken.kind

theorem kinds_commitCurrent (hb : b.heldBack = none) : (b.commitCurrent l i).kinds = b.kinds := by
  unfold commitCurrent
  split
  · next t ht => simp [kinds, handOver, hb, ht, Locator.token]
  · rfl

theorem notHeld_commitHeldBack : (b.commitHeldBack l i).heldBack = none := by
  unfold commitHeldBack
  split
  · rfl
  · assumption

theorem kinds_commitHeldBack (h : b.heldBack = none ∨ b.current = none) :
    (b.commitHeldBack l i).kinds = b.kinds := by
  unfold commitHeldBack
  split
  · next t ht =>
    have hc : b.current = none := h.resolve_left (by simp [ht])
    simp [kinds, handOver, ht, hc, Locator.token]
  · rfl

theorem kinds_finish (hb : b.heldBack = none) : (b.finish l i).kinds = b.kinds := by
  unfold finish
  split
  · next t ht => simp [kinds, handOver, hb, ht, Locator.token]
  · rfl

theorem kinds_push : (b.push s).kinds = b.kinds := by
  cases h : b.current <;> simp [kinds, push, h]

theorem kinds_startAt (hb : b.heldBack = none) : (b.startAt l k i).kinds = b.kinds ++ [k] := by
  have hcommit := kinds_commitCurrent (l := l) (i := i) hb
  unfold startAt
  unfold commitCurrent at hcommit ⊢
  split
  · next t ht => simp [kinds, handOver, hb, ht, Locator.token]
  · next ht => simp [kinds, hb, ht]

theorem notHeld_startAt (hb : b.heldBack = none) : (b.startAt l k i).heldBack = none := by
  unfold startAt commitCurrent
  dsimp only
  split <;> exact hb

theorem kinds_hold (hb : b.heldBack = none) : b.hold.kinds = b.kinds := by
  simp [kinds, hold, hb]

/-- The second buffer holds nothing back, and comes from the first one by starting tokens of the kinds
`P`. -/
structure Starts (P : TokenKind → Prop) (b b' : TokenBuffer) : Prop where
  notHeld : b'.heldBack = none
  kinds : ∃ ks, (∀ k ∈ ks, P k) ∧ b'.kinds = b.kinds ++ ks

namespace Starts

theorem of_kinds (hb : b'.heldBack = none) (hk : b'.kinds = b.kinds) : Starts P b b' :=
  ⟨hb, [], List.forall_mem_nil P, by rw [hk, List.append_nil]⟩

theorem push (h : Starts P b b') : Starts P b (b'.push s) :=
  ⟨h.notHeld, by rw [kinds_push]; exact h.kinds⟩

theorem finish (h : Starts P b b') : Starts P b (b'.finish l i) := by
  refine ⟨?_, kinds_finish (l := l) (i := i) h.notHeld ▸ h.kinds⟩
  unfold TokenBuffer.finish
  split <;> exact h.notHeld

theorem startAt (h : Starts P b b') (hk : P k) : Starts P b (b'.startAt l k i) := by
  obtain ⟨ks, hks, heq⟩ := h.kinds
  refine ⟨notHeld_startAt h.notHeld, ks ++ [k],
    List.forall_mem_append.2 ⟨hks, List.forall_mem_singleton.2 hk⟩, ?_⟩
  rw [kinds_startAt h.notHeld, heq, List.append_assoc]

theorem append (h : Starts P b b') (hk : P k) : Starts P b (b'.append l k s i) := by
  unfold TokenBuffer.append continueAs
  split
  · exact h.push
  · exact (h.startAt hk).push

theorem restore (hc : b.current = none) : Starts P b b.restore :=
  .of_kinds rfl (by simp [TokenBuffer.kinds, TokenBuffer.restore, hc])

theorem commitHeldBack (hc : b.current = none) : Starts P b (b.commitHeldBack l i) :=
  .of_kinds notHeld_commitHeldBack (kinds_commitHeldBack (.inr hc))

end Starts
end TokenBuffer

/-! ## Steps -/

namespace LexState

/-- Whether in this state a value can be read that starts behind this character or later, without
another name in front of it. -/
def takesValue : LexState → Option Char → Bool
  | .attributeName, _ | .beforeAttributeValue, _ => true
  | .afterAttributeName, c => !(c == none || c == some '/' || c == some '>')
  | _, _ => false

/-- The states between two parts of a tag that a name or its value can start in. -/
def startsPart : LexState → Bool
  | .beforeAttributeName | .attributeName | .afterAttributeName | .beforeAttributeValue => true
  | _ => false

end LexState

theorem Reaches.takesValue {cs : List Char} {l : Locator} {gap : Nat → Prop} {taken : List Token}
    {b : TokenBuffer} {f : Nat} {r : LexState} (h : Reaches cs l gap taken b f r) (c : Option Char) :
    r.takesValue c = false := by
  cases r <;> first | rfl | exact False.elim h

namespace Lexer

variable {cs : List Char} {taken : List Token} {l l' : Lexer} {s : LexState}

/-- A step that starts no value, and leads to a state that none comes next in. -/
structure Aside (l l' : Lexer) : Prop where
  kinds : ∃ ks, (∀ k ∈ ks, k ≠ .literal) ∧ l'.buffer.kinds = l.buffer.kinds ++ ks
  single : l'.buffer.heldBack = none ∨ l'.buffer.current = none
  state : ∀ c, l'.state.takesValue c = false

theorem Aside.of_starts (h : l.buffer.Starts (· ≠ .literal) l'.buffer)
    (hs : ∀ c, l'.state.takesValue c = false) : Aside l l' :=
  ⟨h.kinds, .inl h.notHeld, hs⟩

theorem textKind_ne_literal (s : LexState) : s.textKind ≠ .literal := by
  cases s <;> decide

/-! ### References -/

/-- In a reference the buffer is in the state that the lexer goes back to. -/
theorem Stage.reaches {here : Bool} (h : l.Stage cs taken here s) (hs : s.inReference = true) :
    ∃ f, Reaches cs l.locator l.HasGap taken l.buffer f l.returnState := by
  cases s with
  | characterReference | namedCharacterReference | numericCharacterReference =>
    exact ⟨_, InReference.reaches h⟩
  | ambiguousAmpersand => exact ⟨_, AfterAmpersand.reaches h⟩
  | decimalCharacterReferenceStart => exact ⟨_, h.1.reaches⟩
  | hexadecimalCharacterReferenceStart =>
    obtain ⟨x, hx, hr, hcode⟩ := h
    exact ⟨_, hr.reaches⟩
  | decimalCharacterReference =>
    obtain ⟨ds, hr, hd⟩ := h
    exact ⟨_, hr.reaches⟩
  | hexadecimalCharacterReference =>
    obtain ⟨x, ds, hx, hr, hd⟩ := h
    exact ⟨_, hr.reaches⟩
  | _ => cases hs

/-- Where the lexer goes next does not matter. -/
theorem starts_goto {b : TokenBuffer} (h : b.Starts (· ≠ .literal) l.buffer) (s : LexState) :
    b.Starts (· ≠ .literal) (l.goto s).buffer := h

theorem starts_reconsume {b : TokenBuffer} (h : b.Starts (· ≠ .literal) l.buffer) (s : LexState) :
    b.Starts (· ≠ .literal) (l.reconsume s).buffer := h

section
variable (hb : l.buffer.heldBack = none)
include hb

theorem flushReference_starts (s : String) :
    l.buffer.Starts (· ≠ .literal) (l.flushReference s).buffer := by
  unfold flushReference
  dsimp only
  split
  · exact .push (.of_kinds hb rfl)
  · exact .append (.of_kinds hb rfl) (textKind_ne_literal _)

theorem flushRaw_starts (stop : Nat) : l.buffer.Starts (· ≠ .literal) (l.flushRaw stop).buffer :=
  flushReference_starts (l := l.checkReference stop) hb _

theorem flushDecoded_starts (decoded : String) (stop : Nat) :
    l.buffer.Starts (· ≠ .literal) (l.flushDecoded decoded stop).buffer := by
  unfold flushDecoded
  dsimp only
  split
  · exact flushReference_starts (l := l.checkReference stop) hb decoded
  · exact flushRaw_starts hb stop

theorem finishNumericReference_starts (stop : Nat) :
    l.buffer.Starts (· ≠ .literal) (l.finishNumericReference stop).buffer := by
  unfold finishNumericReference
  dsimp only
  split
  · next cause _ => exact flushDecoded_starts (l := l.report cause) hb _ stop
  · exact flushDecoded_starts hb _ stop

/-- How a reference by name ends, which `onNamedCharacterReference` chooses. -/
theorem flushName_starts (found : NamedReference.Found) (stop : Nat) (goesOn : Bool) :
    l.buffer.Starts (· ≠ .literal)
      (if l.returnState.isAttributeValue && !found.terminated && goesOn then l.flushRaw stop
      else if found.terminated then l.flushDecoded found.value stop
      else (l.reportAt .missingSemicolonAfterCharacterReference stop).flushDecoded found.value
        stop).buffer := by
  split
  · exact flushRaw_starts hb stop
  · split
    · exact flushDecoded_starts hb found.value stop
    · exact flushDecoded_starts (l := l.reportAt .missingSemicolonAfterCharacterReference stop) hb
        found.value stop

theorem onNamedCharacterReference_starts :
    l.buffer.Starts (· ≠ .literal) l.onNamedCharacterReference.buffer := by
  unfold onNamedCharacterReference
  split
  · exact flushReference_starts hb "&"
  · next found _ => exact flushName_starts hb found (l.cursor.start + found.length) _

theorem onNumericReferenceDigits_starts (isDigit : Char → Bool) (radix : Nat) (s : LexState)
    (c : Option Char) :
    l.buffer.Starts (· ≠ .literal) (l.onNumericReferenceDigits isDigit radix s c).buffer := by
  have hmissing := finishNumericReference_starts
    (l := l.report .missingSemicolonAfterCharacterReference) hb l.cursor.start
  unfold onNumericReferenceDigits
  split
  · split
    · exact .of_kinds hb rfl
    · split
      · exact starts_goto (finishNumericReference_starts hb _) _
      · exact starts_reconsume hmissing _
  · exact starts_reconsume hmissing _

/-- A step in a reference starts text at most. -/
theorem step_starts (hs : l.state.inReference = true) :
    l.buffer.Starts (· ≠ .literal) l.step.buffer := by
  have hsame : l.buffer.Starts (· ≠ .literal) l.buffer := .of_kinds hb rfl
  unfold step
  dsimp only
  split
  case h_37 =>
    unfold onCharacterReference
    split
    · exact hsame
    · split
      · exact hsame
      · exact flushReference_starts hb "&"
    · exact flushReference_starts hb "&"
  case h_38 => exact onNamedCharacterReference_starts hb
  case h_39 =>
    unfold onAmbiguousAmpersand
    split
    · exact hsame
    · split
      · exact flushReference_starts hb _
      · exact hsame
    · exact hsame
  case h_40 =>
    unfold onNumericCharacterReference
    split <;> exact hsame
  case h_41 | h_42 =>
    unfold onNumericReferenceStart
    split
    · exact hsame
    · exact flushRaw_starts (l := l.report .absenceOfDigitsInNumericCharacterReference) hb _
  case h_43 | h_44 => exact onNumericReferenceDigits_starts hb ..
  all_goals
    next heq => exact absurd (heq ▸ hs) (by decide)

end

/-- A reference leads back to where it stands. -/
theorem step_aside_of_inReference (h : Enters cs taken l l.state) (hs : l.state.inReference = true) :
    Aside l l.step := by
  obtain ⟨f, hreaches⟩ := h.stage.reaches hs
  refine .of_starts (step_starts hreaches.building.notHeld hs) fun c => ?_
  cases step_referenceStep hs with
  | goesOn _ hs' =>
    generalize l.step.state = s at hs'
    cases s <;> first | rfl | cases hs'
  | goesBack _ hs' => exact hs' ▸ hreaches.takesValue c

/-! ### Text that is held back -/

theorem restoreHeldBack_aside (hc : l.buffer.current = none) (hs : s = .rcdata ∨ s = .rawText) :
    Aside l ((l.restoreHeldBack s).reconsume s) := by
  refine .of_starts (.append (.restore hc) (textKind_ne_literal s)) fun c => ?_
  rcases hs with rfl | rfl <;> rfl

theorem onTextLessThanSign_aside (hb : l.buffer.heldBack = none) (hs : s = .rcdata ∨ s = .rawText)
    (c : Option Char) : Aside l (l.onTextLessThanSign s c) := by
  unfold onTextLessThanSign
  split
  · refine ⟨⟨[], List.forall_mem_nil _, ?_⟩, .inr rfl, fun c => ?_⟩
    · rw [List.append_nil]
      exact TokenBuffer.kinds_hold hb
    · rcases hs with rfl | rfl <;> rfl
  · refine .of_starts (.append (.of_kinds hb rfl) (textKind_ne_literal s)) fun c => ?_
    rcases hs with rfl | rfl <;> rfl

theorem onTextEndTagOpen_aside (hc : l.buffer.current = none) (hs : s = .rcdata ∨ s = .rawText)
    (c : Option Char) : Aside l (l.onTextEndTagOpen s c) := by
  have hstays : Aside l (l.reconsume (textEndTagName s)) := by
    refine ⟨⟨[], List.forall_mem_nil _, (List.append_nil _).symm⟩, .inr hc, fun c => ?_⟩
    rcases hs with rfl | rfl <;> rfl
  unfold onTextEndTagOpen
  split
  · split
    · exact hstays
    · exact restoreHeldBack_aside hc hs
  · exact restoreHeldBack_aside hc hs

theorem onTextEndTagName_aside (hc : l.buffer.current = none) (hs : s = .rcdata ∨ s = .rawText)
    (c : Option Char) : Aside l (l.onTextEndTagName s c) := by
  have hpromote : l.buffer.Starts (· ≠ .literal) l.promoteHeldBack.buffer :=
    .push (.startAt (.commitHeldBack hc) (by decide))
  unfold onTextEndTagName
  split
  · split
    · exact .of_starts (.push (.startAt hpromote (by decide))) fun _ => rfl
    · split
      · exact .of_starts hpromote fun _ => rfl
      · split
        · exact .of_starts (.finish (.startAt hpromote (by decide))) fun _ => rfl
        · split
          · refine ⟨⟨[], List.forall_mem_nil _, (List.append_nil _).symm⟩, .inr hc, fun c => ?_⟩
            rcases hs with rfl | rfl <;> rfl
          · exact restoreHeldBack_aside hc hs
  · exact restoreHeldBack_aside hc hs

/-! ### All states -/

/-- The state around an interpolation is one of content. -/
theorem Stage.outer {here : Bool} (h : l.Stage cs taken here s)
    (hs : s = .interpolationStart ∨ s = .interpolationData ∨ s = .interpolationEnd) :
    l.outerState = .data ∨ l.outerState = .rcdata := by
  rcases hs with rfl | rfl | rfl
  · exact h.1
  · exact h.1.outer
  · exact h.1.outer

/-! ### Interpolations -/

theorem blankKind_ne_literal {k : TokenKind} (hk : k ≠ .literal) (c : Char) :
    (if CharClass.isBlank c then .whitespace else k) ≠ TokenKind.literal := by
  split
  · decide
  · exact hk

section
variable (hb : l.buffer.heldBack = none) (houter : ∀ c, l.outerState.takesValue c = false)
  (c : Option Char)
include hb houter

theorem onInterpolationStart_aside : Aside l (l.onInterpolationStart c) := by
  unfold onInterpolationStart
  split
  · exact .of_starts (.finish (.push (.startAt (.of_kinds hb rfl) (by decide)))) fun _ => rfl
  · exact .of_starts (.append (.of_kinds hb rfl) (textKind_ne_literal _)) houter

theorem onInterpolationData_aside : Aside l (l.onInterpolationData c) := by
  unfold onInterpolationData
  split
  · exact .of_starts (.of_kinds hb rfl) fun _ => rfl
  · exact .of_starts (.of_kinds hb rfl) fun _ => rfl
  · exact .of_starts (.of_kinds hb rfl) houter
  · exact .of_starts (.append (.of_kinds hb rfl) (blankKind_ne_literal (by decide) _)) fun _ => rfl

theorem onInterpolationEnd_aside : Aside l (l.onInterpolationEnd c) := by
  unfold onInterpolationEnd
  split
  · exact .of_starts (.finish (.push (.startAt (.of_kinds hb rfl) (by decide)))) houter
  · exact .of_starts (.append (.of_kinds hb rfl) (by decide)) fun _ => rfl

end

/-- A step in a state that no part of a tag starts in starts no value. -/
theorem step_aside (h : Enters cs taken l l.state) (hs : l.state.startsPart = false) :
    Aside l l.step := by
  by_cases hreference : l.state.inReference = true
  · exact step_aside_of_inReference h hreference
  have hheld : ∀ {s : LexState}, l.state = s → s.holdsBack = false → l.buffer.heldBack = none :=
    fun heq hs' => (h.stage.building (heq ▸ hs')).notHeld
  have hidle : ∀ {s : LexState}, l.state = s → s.holdsBack = true → l.buffer.current = none :=
    fun heq hs' => (h.stage.holds (heq ▸ hs')).idle
  have houter : ∀ {s : LexState}, l.state = s →
      s = .interpolationStart ∨ s = .interpolationData ∨ s = .interpolationEnd →
        ∀ c, l.outerState.takesValue c = false := by
    intro s heq hs' c
    rcases h.stage.outer (heq ▸ hs') with ho | ho <;> rw [ho] <;> rfl
  unfold step
  dsimp only
  split
  case h_7 heq => exact onTextLessThanSign_aside (hheld heq rfl) (.inl rfl) _
  case h_8 heq => exact onTextEndTagOpen_aside (hidle heq rfl) (.inl rfl) _
  case h_9 heq => exact onTextEndTagName_aside (hidle heq rfl) (.inl rfl) _
  case h_10 heq => exact onTextLessThanSign_aside (hheld heq rfl) (.inr rfl) _
  case h_11 heq => exact onTextEndTagOpen_aside (hidle heq rfl) (.inr rfl) _
  case h_12 heq => exact onTextEndTagName_aside (hidle heq rfl) (.inr rfl) _
  case h_13 heq | h_14 heq | h_15 heq | h_16 heq =>
    rw [heq] at hs
    cases hs
  case h_37 heq | h_38 heq | h_39 heq | h_40 heq | h_41 heq | h_42 heq | h_43 heq | h_44 heq =>
    exact absurd (by rw [heq]; rfl) hreference
  case h_45 heq => exact onInterpolationStart_aside (hheld heq rfl) (houter heq (.inl rfl)) _
  case h_46 heq => exact onInterpolationData_aside (hheld heq rfl) (houter heq (.inr (.inl rfl))) _
  case h_47 heq => exact onInterpolationEnd_aside (hheld heq rfl) (houter heq (.inr (.inr rfl))) _
  all_goals
    next heq =>
      have hb := hheld heq rfl
      simp only [onData, onRcdata, onRawText, onTagOpen, onEndTagOpen, onTagName,
        onAttributeValueQuoted, onAttributeValueUnquoted, onAfterAttributeValueQuoted,
        onSelfClosingStartTag, onBogusComment, onMarkupDeclarationOpen, onCommentStart,
        onCommentStartDash, onComment, onCommentLessThanSign, onCommentLessThanSignBang,
        onCommentLessThanSignBangDash, onCommentLessThanSignBangDashDash, onCommentEndDash,
        onCommentEnd, onCommentEndBang, onCdataSection, onCdataSectionBracket, onCdataSectionEnd]
      repeat' split
      all_goals
        refine .of_starts ?_ fun _ => rfl
        first
          | exact .of_kinds hb rfl
          | exact .push (.of_kinds hb rfl)
          | exact .finish (.of_kinds hb rfl)
          | exact .append (.of_kinds hb rfl) (by decide)
          | exact .append (.of_kinds hb rfl) (blankKind_ne_literal (by decide) _)
          | exact .startAt (.of_kinds hb rfl) (by decide)
          | exact .push (.startAt (.of_kinds hb rfl) (by decide))
          | exact .finish (.startAt (.of_kinds hb rfl) (by decide))

/-! ### Names and values -/

/-- The values among the tokens stand behind names that wait for them, and where a value can come next, a
name waits for it. -/
structure NamesValues (taken : List Token) (l : Lexer) : Prop where
  single : l.buffer.heldBack = none ∨ l.buffer.current = none
  values : ValuesNamed (taken.map Token.kind ++ l.buffer.kinds)
  waits : ∀ c, (l.again = true → c = l.cursor.char) → l.state.takesValue c = true →
    waitsBehind (taken.map Token.kind ++ l.buffer.kinds) = true

namespace NamesValues

section
variable (h : ValuesNamed (taken.map Token.kind ++ l.buffer.kinds))
include h

theorem of_aside (ha : Aside l l') : NamesValues taken l' := by
  obtain ⟨ks, hks, heq⟩ := ha.kinds
  refine ⟨ha.single, ?_, fun c _ hc => ?_⟩
  · rw [heq, ← List.append_assoc]
    exact h.append hks
  · rw [ha.state] at hc
    cases hc

/-- A name starts, which waits for its value. -/
theorem of_name (hb : l'.buffer.heldBack = none)
    (hk : l'.buffer.kinds = l.buffer.kinds ++ [.identifier]) : NamesValues taken l' := by
  refine ⟨.inl hb, ?_, fun c _ _ => ?_⟩
  · rw [hk, ← List.append_assoc]
    exact h.concat nofun
  · rw [hk, ← List.append_assoc, TokenKind.waitsBehind_concat]
    rfl

/-- The name that waits goes on to do so. -/
theorem of_waiting
    (hw : waitsBehind (taken.map Token.kind ++ l.buffer.kinds) = true)
    (hs : l.buffer.Starts (fun k => k = .association ∨ k = .whitespace) l'.buffer) :
    NamesValues taken l' := by
  obtain ⟨ks, hks, heq⟩ := hs.kinds
  refine ⟨.inl hs.notHeld, ?_, fun c _ _ => ?_⟩
  · rw [heq, ← List.append_assoc]
    refine h.append fun k hk => ?_
    rcases hks k hk with rfl | rfl <;> decide
  · rw [heq, ← List.append_assoc]
    exact waitsBehind_append hw hks

/-- The value of the name starts. -/
theorem of_value
    (hw : waitsBehind (taken.map Token.kind ++ l.buffer.kinds) = true)
    (hb : l'.buffer.heldBack = none)
    (hk : l'.buffer.kinds = l.buffer.kinds ++ [.literal]) (hs : ∀ c, l'.state.takesValue c = false) :
    NamesValues taken l' := by
  refine ⟨.inl hb, ?_, fun c _ hc => ?_⟩
  · rw [hk, ← List.append_assoc]
    exact h.concat fun _ => hw
  · rw [hs] at hc
    cases hc

end

end NamesValues

section
variable (hb : l.buffer.heldBack = none)
  (hn : ValuesNamed (taken.map Token.kind ++ l.buffer.kinds))
include hb hn

theorem onBeforeAttributeName_names :
    NamesValues taken (l.onBeforeAttributeName l.cursor.char) := by
  have hclose : ∀ {c : Option Char}, l.cursor.char = c → c = none ∨ c = some '/' ∨ c = some '>' →
      NamesValues taken (l.reconsume .afterAttributeName) := by
    intro c hc hends
    refine ⟨.inl hb, hn, fun c' hc' htakes => ?_⟩
    have heq : c' = l.cursor.char := hc' rfl
    rw [heq, hc] at htakes
    rcases hends with rfl | rfl | rfl <;> cases htakes
  unfold onBeforeAttributeName
  split
  · next hc => exact hclose hc (.inr (.inl rfl))
  · next hc => exact hclose hc (.inr (.inr rfl))
  · next hc => exact hclose hc (.inl rfl)
  · refine .of_name hn ?_ (TokenBuffer.kinds_push.trans (TokenBuffer.kinds_startAt hb))
    exact TokenBuffer.notHeld_startAt (k := .identifier) hb
  · split
    · exact .of_aside hn (.of_starts (.append (.of_kinds hb rfl) (by decide)) fun _ => rfl)
    · exact .of_name hn (TokenBuffer.notHeld_startAt hb) (TokenBuffer.kinds_startAt hb)

variable (hw : l.state.takesValue l.cursor.char = true →
  waitsBehind (taken.map Token.kind ++ l.buffer.kinds) = true)
include hw

theorem onAttributeName_names (hs : l.state = .attributeName) :
    NamesValues taken (l.onAttributeName l.cursor.char) := by
  have hwaits := hw (hs ▸ rfl)
  have hsame : l.buffer.Starts (fun k => k = .association ∨ k = .whitespace) l.buffer :=
    .of_kinds hb rfl
  unfold onAttributeName
  split
  · exact .of_waiting hn hwaits hsame
  · exact .of_waiting hn hwaits hsame
  · exact .of_waiting hn hwaits hsame
  · exact .of_waiting hn hwaits (.finish (.startAt hsame (.inl rfl)))
  · split
    · exact .of_waiting hn hwaits hsame
    · split
      · exact .of_waiting hn hwaits (.push hsame)
      · exact .of_waiting hn hwaits (.push hsame)

theorem onAfterAttributeName_names (hs : l.state = .afterAttributeName) :
    NamesValues taken (l.onAfterAttributeName l.cursor.char) := by
  rw [hs] at hw
  have hsame : ∀ {P : TokenKind → Prop}, l.buffer.Starts P l.buffer := .of_kinds hb rfl
  unfold onAfterAttributeName
  split
  · exact .of_aside hn (.of_starts hsame fun _ => rfl)
  · next hc => exact .of_waiting hn (hw (hc ▸ rfl)) (.finish (.startAt hsame (.inl rfl)))
  · exact .of_aside hn (.of_starts (.finish (.startAt hsame (by decide))) fun _ => rfl)
  · exact .of_aside hn (.of_starts hsame fun _ => rfl)
  · next c hslash hequals hclose hc =>
    split
    · have htakes : LexState.afterAttributeName.takesValue (some c) = true := by
        simpa [LexState.takesValue] using ⟨hslash, hclose⟩
      exact .of_waiting hn (hw (hc ▸ htakes)) (.append hsame (.inr rfl))
    · exact .of_name hn (TokenBuffer.notHeld_startAt hb) (TokenBuffer.kinds_startAt hb)

theorem onBeforeAttributeValue_names (hs : l.state = .beforeAttributeValue) :
    NamesValues taken (l.onBeforeAttributeValue l.cursor.char) := by
  have hwaits := hw (hs ▸ rfl)
  unfold onBeforeAttributeValue
  split
  · exact .of_value hn hwaits (TokenBuffer.notHeld_startAt hb) (TokenBuffer.kinds_startAt hb) fun _ => rfl
  · exact .of_value hn hwaits (TokenBuffer.notHeld_startAt hb) (TokenBuffer.kinds_startAt hb) fun _ => rfl
  · exact .of_aside hn (.of_starts (.finish (.startAt (.of_kinds hb rfl) (by decide))) fun _ => rfl)
  · exact .of_aside hn (.of_starts (.of_kinds hb rfl) fun _ => rfl)
  · split
    · exact .of_waiting hn hwaits (.append (.of_kinds hb rfl) (.inr rfl))
    · exact .of_value hn hwaits (TokenBuffer.notHeld_startAt hb) (TokenBuffer.kinds_startAt hb) fun _ => rfl

end

/-- A step in any state starts a value only behind a name that waits for it. -/
theorem step_names (h : Enters cs taken l l.state)
    (hn : ValuesNamed (taken.map Token.kind ++ l.buffer.kinds))
    (hw : l.state.takesValue l.cursor.char = true →
      waitsBehind (taken.map Token.kind ++ l.buffer.kinds) = true) : NamesValues taken l.step := by
  cases hs : l.state.startsPart with
  | false => exact .of_aside hn (step_aside h hs)
  | true =>
    have hb : l.buffer.heldBack = none := by
      refine (h.stage.building ?_).notHeld
      generalize l.state = s at hs
      cases s <;> first | rfl | cases hs
    unfold step
    dsimp only
    split
    case h_13 heq => exact onBeforeAttributeName_names hb hn
    case h_14 heq => exact onAttributeName_names hb hn hw heq
    case h_15 heq => exact onAfterAttributeName_names hb hn hw heq
    case h_16 heq => exact onBeforeAttributeValue_names hb hn hw heq
    all_goals
      next heq =>
        rw [heq] at hs
        cases hs

/-! ## Runs -/

namespace NamesValues

theorem ofChars (cs : List Char) (locator : Locator) (tracing : Bool) :
    NamesValues [] (Lexer.ofChars cs locator tracing) :=
  ⟨.inl rfl, .nil, fun _ _ h => by cases h⟩

/-- The tokens that are left at the end of the text are finished. -/
theorem finish (h : NamesValues taken l) : NamesValues taken l.finish := by
  have hheld : (l.buffer.commitHeldBack l.locator l.cursor.index).heldBack = none :=
    TokenBuffer.notHeld_commitHeldBack
  have hkinds : l.finish.buffer.kinds = l.buffer.kinds :=
    (TokenBuffer.kinds_commitCurrent hheld).trans (TokenBuffer.kinds_commitHeldBack h.single)
  exact ⟨.inr TokenBuffer.current_commitCurrent, hkinds ▸ h.values, hkinds ▸ h.waits⟩

theorem advanceStep (h : NamesValues taken l) (ht : Tracks cs taken l) (hf : l.finished = false) :
    NamesValues taken l.advanceStep := by
  obtain ⟨henters, hbuffer, hstate⟩ := ht.enters hf
  have hstep : NamesValues taken l.entered.step := by
    refine step_names henters (hbuffer ▸ h.values) fun hc => ?_
    rw [hbuffer]
    rw [hstate] at hc
    refine h.waits _ (fun ha => ?_) hc
    rw [entered, if_pos ha]
  rw [advanceStep_eq]
  split
  · exact ⟨hstep.finish.single, hstep.finish.values, hstep.finish.waits⟩
  · exact ⟨hstep.single, hstep.values, hstep.waits⟩

/-- A token is handed out. -/
theorem handOut (h : NamesValues taken l) {t : Token} {ready : List Token}
    (hr : l.buffer.ready = t :: ready) :
    NamesValues (taken ++ [t]) { l with buffer := { l.buffer with ready } } := by
  have hkinds : (taken ++ [t]).map Token.kind ++
      ({ l.buffer with ready } : TokenBuffer).kinds = taken.map Token.kind ++ l.buffer.kinds := by
    simp [TokenBuffer.kinds, hr]
  exact ⟨h.single, hkinds ▸ h.values, hkinds ▸ h.waits⟩

theorem run (h : NamesValues taken l) (ht : Tracks cs taken l) (fuel : Nat) :
    NamesValues (taken ++ (l.run fuel).1.toList) (l.run fuel).2 := by
  induction fuel generalizing l with
  | zero =>
    unfold Lexer.run
    split
    · next t ready hr => exact h.handOut hr
    · rw [apply_ite Prod.fst, apply_ite Prod.snd, ite_self, Option.toList_none, List.append_nil]
      split
      · exact h
      · exact ⟨h.single, h.values, h.waits⟩
  | succ fuel ih =>
    unfold Lexer.run
    split
    · next t ready hr => exact h.handOut hr
    · next hr =>
      split
      · rw [Option.toList_none, List.append_nil]
        exact h
      · next hf =>
        have hf' : l.finished = false := by simpa using hf
        exact ih (h.advanceStep ht hf') (ht.advanceStep hf' hr)

/-- However the lexer is led on, it keeps its tokens, and goes on in a state that no value comes next
in. -/
theorem steered {x y : Lexer} (h : NamesValues taken x) (hs : x.Steered y) : NamesValues taken y := by
  cases hs with
  | told htold =>
    obtain ⟨ns, interpolating, log, rfl⟩ := htold
    exact ⟨h.single, h.values, h.waits⟩
  | entered htold hs =>
    obtain ⟨ns, interpolating, log, rfl⟩ := htold
    rw [enter_eq]
    refine ⟨h.single, h.values, fun c _ hc => ?_⟩
    rcases hs with rfl | rfl <;> cases hc

end NamesValues
end Lexer

/-- All values among the tokens that are taken stand behind names that wait for them. -/
theorem Builder.Takes.namesValues {cs : List Char} {l : Locator} {taken ts : List Token} {b b' : Builder}
    (h : b.Takes ts b') (hr : Runs cs l taken b) (hn : b.lexer.NamesValues taken) :
    b'.lexer.NamesValues (taken ++ ts) := by
  induction h with
  | nothing => rwa [List.append_nil]
  | @token ts b' t x h hpull ih =>
    obtain ⟨floor, m, p, -, -, hstands⟩ := (h.runs hr).stands
    have hrun := ih.run hstands.built.tracks b'.lexer.stepsLeft
    rw [show b'.lexer.run b'.lexer.stepsLeft = (some t, x) from hpull, List.append_assoc] at hrun
    exact Builder.drain_lexer (fun hs hx => hx.steered hs) hrun

namespace Template

/-- Each value among the tokens of a template stands behind the name of an attribute, with `=` and blanks
in between only. -/
theorem parse_valuesNamed (text : String) (o : Options) (reader : Script.Reader) :
    ValuesNamed ((parse text o reader).tokens.toList.map Token.kind) := by
  obtain ⟨ts, b, x, hall⟩ := exists_takesAll text o
  have hnames := hall.takes.namesValues (runs_startOf text o)
    (.ofChars text.toList (locatorOf text o) o.tracing)
  have hvalues := hnames.values.front.filter
  rw [List.filter_map] at hvalues
  rw [(hall.recorded reader).1]
  exact hvalues

end Template
end TemplateSyntax
