import TemplateSyntax.Proofs.LexerInterpolation

/-! # How far a step gets

A step takes the current character or goes on with it in another state, and it goes on with one
character at most three times: `LexState.rank` says how often at most.  It starts two tokens at
most.  A token that closes a tag is the last one that its step finishes, and text comes next. -/

namespace TemplateSyntax

/-- The kinds of tokens that close a tag. -/
def TokenKind.closesTag : TokenKind → Bool
  | tagClose | selfClosingTagClose => true
  | _ => false

namespace TokenBuffer

variable {b b' : TokenBuffer} {l : Locator} {k : TokenKind} {s : String} {n i j : Nat}

/-- The number of tokens that are finished or being built. -/
def count (b : TokenBuffer) : Nat :=
  b.ready.length + b.current.toList.length + b.heldBack.toList.length

/-- No token that is being built closes a tag. -/
structure Pending (b : TokenBuffer) : Prop where
  current : ∀ t ∈ b.current, t.kind.closesTag = false
  heldBack : ∀ t ∈ b.heldBack, t.kind.closesTag = false

/-- No token closes a tag. -/
structure Open (b : TokenBuffer) : Prop extends Pending b where
  ready : ∀ t ∈ b.ready, t.kind.closesTag = false

/-- Of the tokens that are ready only the last one may close a tag, and that one stops at an offset. -/
def LastCloses (b : TokenBuffer) (stop : Nat) : Prop :=
  ∃ front t, b.ready = front ++ [t] ∧ (∀ x ∈ front, x.kind.closesTag = false) ∧
    t.extent.span.stop = stop

/-- `b'` comes from `b` by operations that start at most `n` tokens, none of which closes a
tag. -/
structure Feeds (n : Nat) (b b' : TokenBuffer) : Prop where
  count : b'.count ≤ b.count + n
  stays : b.Open → b'.Open

/-- Behind the token that closes a tag no other one is ready. -/
theorem LastCloses.back (h : b.LastCloses j) {t : Token} {back : List Token}
    (hr : b.ready = t :: back) :
    (t.kind.closesTag = true → back = [] ∧ t.extent.span.stop = j) ∧
      ((∃ x ∈ back, x.kind.closesTag = true) →
        ({ b with ready := back } : TokenBuffer).LastCloses j) := by
  obtain ⟨front, last, heq, hfront, hstop⟩ := h
  cases front with
  | nil =>
    obtain ⟨rfl, rfl⟩ := List.cons.inj (hr.symm.trans heq)
    exact ⟨fun _ => ⟨rfl, hstop⟩, fun ⟨x, hx, _⟩ => absurd hx List.not_mem_nil⟩
  | cons u front =>
    obtain ⟨rfl, rfl⟩ := List.cons.inj (hr.symm.trans heq)
    refine ⟨fun hc => ?_, fun _ => ⟨front, last, rfl, fun x hx =>
      hfront x (List.mem_cons_of_mem t hx), hstop⟩⟩
    rw [hfront t (List.mem_cons_self ..)] at hc
    exact absurd hc (by decide)

theorem handOver_open {t : PendingToken} (h : b.Open) (ht : t.kind.closesTag = false) :
    (b.handOver l t j).Open where
  current := h.current
  heldBack := h.heldBack
  ready := by
    intro x hx
    rcases List.mem_append.1 hx with hx | hx
    · exact h.ready x hx
    · obtain rfl := List.mem_singleton.1 hx
      exact ht

theorem commitCurrent_open (h : b.Open) : (b.commitCurrent l j).Open := by
  unfold commitCurrent
  split
  · next t ht =>
    exact handOver_open { h with current := by simp } (h.current t ht)
  · exact h

theorem commitHeldBack_open (h : b.Open) : (b.commitHeldBack l j).Open := by
  unfold commitHeldBack
  split
  · next t ht =>
    exact handOver_open { h with heldBack := by simp } (h.heldBack t ht)
  · exact h

theorem count_commitCurrent : (b.commitCurrent l j).count = b.count := by
  unfold commitCurrent
  split
  · next t ht => simp [count, handOver, ht]
  · rfl

theorem count_commitHeldBack : (b.commitHeldBack l j).count = b.count := by
  unfold commitHeldBack
  split
  · next t ht =>
    simp only [count, handOver, ht, List.length_append, List.length_singleton, Option.toList]
    simp only [List.length_nil]
    omega
  · rfl

theorem current_commitCurrent : (b.commitCurrent l j).current = none := by
  unfold commitCurrent
  split
  · rfl
  · next h => exact h

theorem count_startAt : (b.startAt l k i).count = b.count + 1 := by
  have h := count_commitCurrent (b := b) (l := l) (j := i)
  have hn := current_commitCurrent (b := b) (l := l) (j := i)
  simp only [count, hn, startAt, Option.toList, List.length_nil, List.length_singleton] at h ⊢
  omega

theorem count_finish_le : (b.finish l j).count ≤ b.count := by
  unfold finish
  split
  · next t ht => simp [count, handOver, ht]
  · exact Nat.le_refl _

theorem count_push : (b.push s).count = b.count := by
  cases h : b.current <;> simp [count, push, h]

theorem startAt_open (h : b.Open) (hk : k.closesTag = false) : (b.startAt l k i).Open := by
  have hc := commitCurrent_open (l := l) (j := i) h
  exact { hc with current := by simpa [startAt] using hk }

theorem push_open (h : b.Open) : (b.push s).Open := by
  refine { h with current := fun t ht => ?_ }
  obtain ⟨t', ht', rfl⟩ := Option.map_eq_some_iff.1 ht
  exact h.current t' ht'

namespace Feeds

variable {m : Nat}

theorem refl (b : TokenBuffer) : Feeds n b b := ⟨Nat.le_add_right _ _, id⟩

theorem weaken (h : Feeds n b b') : Feeds (n + 1) b b' := ⟨Nat.le_succ_of_le h.count, h.stays⟩

theorem startAt (h : Feeds n b b') (hk : k.closesTag = false) :
    Feeds (n + 1) b (b'.startAt l k i) :=
  ⟨by rw [count_startAt]; exact Nat.succ_le_succ h.count, fun ho => startAt_open (h.stays ho) hk⟩

theorem push (h : Feeds n b b') : Feeds n b (b'.push s) :=
  ⟨by rw [count_push]; exact h.count, fun ho => push_open (h.stays ho)⟩

theorem finish (h : Feeds n b b') : Feeds n b (b'.finish l j) := by
  refine ⟨Nat.le_trans count_finish_le h.count, fun ho => ?_⟩
  have ho' := h.stays ho
  unfold TokenBuffer.finish
  split
  · next t ht =>
    exact handOver_open { ho' with current := by simp } (ho'.current t ht)
  · exact { ho' with }

theorem append (h : Feeds n b b') (hk : k.closesTag = false) :
    Feeds (n + 1) b (b'.append l k s i) := by
  unfold TokenBuffer.append continueAs
  split
  · exact ⟨Nat.le_succ_of_le h.push.count, h.push.stays⟩
  · exact (h.startAt hk).push

theorem hold (h : Feeds n b b') : Feeds n b b'.hold := by
  refine ⟨Nat.le_trans ?_ h.count, fun ho => ?_⟩
  · simp only [TokenBuffer.count, TokenBuffer.hold, Option.toList, List.length_nil]
    omega
  · have ho' := h.stays ho
    exact ⟨⟨by simp [TokenBuffer.hold], ho'.current⟩, ho'.ready⟩

theorem restore (h : Feeds n b b') : Feeds n b b'.restore := by
  refine ⟨Nat.le_trans ?_ h.count, fun ho => ?_⟩
  · simp only [TokenBuffer.count, TokenBuffer.restore, Option.toList, List.length_nil]
    omega
  · have ho' := h.stays ho
    exact ⟨⟨ho'.heldBack, by simp [TokenBuffer.restore]⟩, ho'.ready⟩

theorem commitHeldBack (h : Feeds n b b') : Feeds n b (b'.commitHeldBack l j) :=
  ⟨by rw [count_commitHeldBack]; exact h.count, fun ho => commitHeldBack_open (h.stays ho)⟩

/-- A token that closes a tag leaves none that does to be built. -/
theorem close (h : Feeds n b b') :
    ((b'.startAt l k i).finish l j).count ≤ b.count + (n + 1) ∧
      ((b'.startAt l k i).finish l j).current = none ∧
      (b.Open → ((b'.startAt l k i).finish l j).Pending ∧
        ((b'.startAt l k i).finish l j).LastCloses (l.host j)) := by
  refine ⟨Nat.le_trans count_finish_le ?_, rfl, fun ho => ?_⟩
  · rw [count_startAt]
    exact Nat.succ_le_succ h.count
  · have hc := commitCurrent_open (l := l) (j := i) (h.stays ho)
    exact ⟨⟨by simp [TokenBuffer.finish, TokenBuffer.startAt, handOver], hc.heldBack⟩,
      _, _, rfl, hc.ready, rfl⟩

end Feeds

end TokenBuffer

namespace LexState

/-- Whether a character goes on with the name of an attribute. -/
def goesOnName : Option Char → Bool
  | none | some '/' | some '>' => false
  | some c => !CharClass.isBlank c

theorem goesOnName_of_isBlank {c : Char} (h : CharClass.isBlank c = true) :
    goesOnName (some c) = false := by
  unfold goesOnName
  split
  · rfl
  · rfl
  · rfl
  · next heq =>
    obtain rfl := Option.some.inj heq
    simpa using h

theorem goesOnName_some {c : Char} (h1 : c = '/' → False) (h2 : c = '>' → False)
    (h3 : ¬ CharClass.isBlank c = true) : goesOnName (some c) = true := by
  unfold goesOnName
  split
  · next h => simp at h
  · next h => exact absurd (Option.some.inj h) h1
  · next h => exact absurd (Option.some.inj h) h2
  · next h =>
    obtain rfl := Option.some.inj h
    simpa using h3

/-- The rank of a state that a character reference goes back to. -/
def backRank (c : Option Char) : LexState → Nat
  | interpolationData => if c.isNone then 1 else 0
  | _ => 0

/-- How often at most the lexer goes on with the current character `c` from a state on.  `back` is
the state behind a character reference. -/
def rank (back : LexState) (c : Option Char) : LexState → Nat
  | attributeName => if goesOnName c then 0 else 1
  | afterAttributeName => if goesOnName c then 1 else 0
  | tagOpen | endTagOpen | rcdataLessThanSign | rawTextLessThanSign | rcdataEndTagName
  | rawTextEndTagName | beforeAttributeName | beforeAttributeValue | markupDeclarationOpen
  | commentStart | commentStartDash | commentLessThanSign | commentLessThanSignBang
  | commentEndDash | commentEnd | commentEndBang | cdataSectionBracket | cdataSectionEnd
  | interpolationStart => 1
  | rcdataEndTagOpen | rawTextEndTagOpen | afterAttributeValueQuoted | selfClosingStartTag
  | commentLessThanSignBangDash | commentLessThanSignBangDashDash | interpolationEnd => 2
  | interpolationData => backRank c interpolationData
  | characterReference => if c.any Char.isAlphanum then 2 else 1 + backRank c back
  | ambiguousAmpersand => if c.any Char.isAlphanum then 0 else 1 + backRank c back
  | namedCharacterReference => (if c.any Char.isAlphanum then 0 else 1 + backRank c back) + 1
  | numericCharacterReference => 2 + backRank c back
  | decimalCharacterReferenceStart | hexadecimalCharacterReferenceStart => 1 + backRank c back
  | decimalCharacterReference => if c.any Char.isDigit then 0 else 1 + backRank c back
  | hexadecimalCharacterReference =>
    if c.any CharClass.isHexDigit then 0 else 1 + backRank c back
  | _ => 0

variable {back : LexState} {c : Option Char}

theorem rank_attributeName (h : goesOnName c = true) : rank back c attributeName = 0 := by
  simp [rank, h]

theorem rank_afterAttributeName (h : goesOnName c = false) :
    rank back c afterAttributeName = 0 := by
  simp [rank, h]

theorem rank_of_isAlphanum (h : c.any Char.isAlphanum = true) :
    rank back c characterReference = 2 ∧ rank back c namedCharacterReference = 1 ∧
      rank back c ambiguousAmpersand = 0 := by
  simp [rank, h]

theorem rank_of_not_isAlphanum (h : ¬ c.any Char.isAlphanum = true) :
    rank back c characterReference = backRank c back + 1 ∧
      rank back c ambiguousAmpersand = backRank c back + 1 := by
  simp [rank, h, Nat.add_comm]

/-- In the digits of a reference the lexer goes on with a digit no more. -/
theorem rank_digits {isDigit : Char → Bool} {digits : LexState}
    (h : (isDigit = Char.isDigit ∧ digits = decimalCharacterReference) ∨
      (isDigit = CharClass.isHexDigit ∧ digits = hexadecimalCharacterReference)) :
    rank back c digits = if c.any isDigit then 0 else backRank c back + 1 := by
  rcases h with ⟨rfl, rfl⟩ | ⟨rfl, rfl⟩ <;> simp [rank, Nat.add_comm]

theorem backRank_le_one (c : Option Char) (back : LexState) : backRank c back ≤ 1 := by
  unfold backRank
  repeat' split
  all_goals decide

theorem rank_le_three (back : LexState) (c : Option Char) (s : LexState) : rank back c s ≤ 3 := by
  have h := backRank_le_one c
  have hb := h back
  have hi := h interpolationData
  unfold rank
  repeat' split
  all_goals omega

end LexState

theorem Reaches.rank_eq {cs : List Char} {l : Locator} {gap : Nat → Prop} {taken : List Token}
    {b : TokenBuffer} {f : Nat} {r : LexState} (h : Reaches cs l gap taken b f r)
    (back : LexState) (c : Option Char) : LexState.rank back c r = LexState.backRank c r := by
  cases r with
  | data | rcdata | attributeValueDoubleQuoted | attributeValueSingleQuoted
  | attributeValueUnquoted | interpolationData => rfl
  | _ => exact False.elim h

namespace Lexer

open TokenBuffer (Feeds)

/-- The rank of the state for the current character. -/
def rank (l : Lexer) : Nat := LexState.rank l.returnState l.cursor.char l.state

theorem rank_of_state {l : Lexer} {s : LexState} (hs : l.state = s) :
    l.rank = LexState.rank l.returnState l.cursor.char s := by
  rw [rank, hs]

/-- The lexer has taken the character that closes a tag, and content comes next. -/
structure BehindTag (l : Lexer) : Prop where
  state : l.state = .data
  again : l.again = false
  char : l.cursor.char = some '>'
  idle : l.buffer.current = none

/-- What a step does to the tokens and how far it gets. -/
structure Moves (l l' : Lexer) : Prop where
  count : l'.buffer.count ≤ l.buffer.count + 2
  pending : l.buffer.Open → l'.buffer.Pending
  closes : l.buffer.Open → l'.buffer.Open ∨
    (l'.BehindTag ∧ l'.buffer.LastCloses (l'.locator.host l'.cursor.index))
  repeats : l'.again = true → l'.cursor = l.cursor ∧ l'.rank < l.rank
  takes : l'.again = false →
    l'.cursor.char = l.cursor.char ∧ l'.cursor.rest.length ≤ l.cursor.rest.length

variable {cs : List Char} {taken : List Token} {l l' : Lexer} {s : LexState} {n : Nat}

namespace Moves

theorem byTaking (hb : Feeds 2 l.buffer l'.buffer) (ha : l'.again = false)
    (hc : l'.cursor.char = l.cursor.char)
    (hr : l'.cursor.rest.length ≤ l.cursor.rest.length) : Moves l l' where
  count := hb.count
  pending ho := (hb.stays ho).toPending
  closes ho := .inl (hb.stays ho)
  repeats h := by simp [ha] at h
  takes _ := ⟨hc, hr⟩

/-- A step that takes the current character. -/
theorem taking (hb : Feeds 2 l.buffer l'.buffer) (ha : l'.again = false)
    (hc : l'.cursor = l.cursor) : Moves l l' :=
  byTaking hb ha (by rw [hc]) (by simp [hc])

/-- A step that goes on with the current character. -/
theorem repeating (hb : Feeds 2 l.buffer l'.buffer) (ha : l'.again = true)
    (hc : l'.cursor = l.cursor) {r : Nat} (hr : l.rank = r + 1) (hr' : l'.rank ≤ r) :
    Moves l l' where
  count := hb.count
  pending ho := (hb.stays ho).toPending
  closes ho := .inl (hb.stays ho)
  repeats _ := ⟨hc, by omega⟩
  takes h := by simp [ha] at h

/-- A step that finishes a tag. -/
theorem closing {b : TokenBuffer} {k : TokenKind} {i j : Nat} (hb : Feeds 1 l.buffer b)
    (heq : l'.buffer = (b.startAt l.locator k i).finish l.locator j)
    (ha : l'.again = false) (hs : l'.state = .data) (hc : l'.cursor = l.cursor)
    (hchar : l.cursor.char = some '>') (hj : l.locator.host j = l'.locator.host l'.cursor.index) :
    Moves l l' where
  count := by
    have h := (hb.close (l := l.locator) (k := k) (i := i) (j := j)).1
    rw [heq]
    omega
  pending ho := by rw [heq]; exact (hb.close.2.2 ho).1
  closes ho := by
    refine .inr ⟨⟨hs, ha, hc ▸ hchar, ?_⟩, ?_⟩
    · rw [heq]
      exact hb.close.2.1
    · rw [heq, ← hj]
      exact (hb.close.2.2 ho).2
  repeats h := by simp [ha] at h
  takes _ := by rw [hc]; exact ⟨rfl, Nat.le_refl _⟩

end Moves

/-- What ends a name is taken behind it. -/
theorem afterName_moves {r : Nat} (hr : l.rank = r + 1)
    (hc : LexState.goesOnName l.cursor.char = false) :
    Moves l (l.reconsume .afterAttributeName) :=
  .repeating (.refl _) rfl rfl hr
    (Nat.le_trans (Nat.le_of_eq (LexState.rank_afterAttributeName hc)) (Nat.zero_le r))

/-- What else comes behind a name starts another one. -/
theorem startName_moves {r : Nat} (hr : l.rank = r + 1)
    (hc : LexState.goesOnName l.cursor.char = true) :
    Moves l ((l.startToken .identifier).reconsume .attributeName) :=
  .repeating ((Feeds.refl _).startAt rfl) rfl rfl hr
    (Nat.le_trans (Nat.le_of_eq (LexState.rank_attributeName hc)) (Nat.zero_le r))

/-- What flushing a reference leaves as it is; it starts one token at most. -/
structure Keeps (l l' : Lexer) : Prop where
  feeds : Feeds 1 l.buffer l'.buffer
  cursor : l'.cursor = l.cursor
  again : l'.again = l.again
  returnState : l'.returnState = l.returnState

theorem Keeps.refl (l : Lexer) : Keeps l l := ⟨.refl _, rfl, rfl, rfl⟩

theorem flushReference_keeps (l : Lexer) (text : String) : Keeps l (l.flushReference text) := by
  refine ⟨?_, rfl, rfl, rfl⟩
  unfold flushReference
  dsimp only
  split
  · exact (Feeds.refl _).push
  · refine (Feeds.refl _).append ?_
    cases l.returnState <;> rfl

theorem flushRaw_keeps (l : Lexer) (stop : Nat) : Keeps l (l.flushRaw stop) :=
  { flushReference_keeps (l.checkReference stop) _ with }

theorem flushDecoded_keeps (l : Lexer) (decoded : String) (stop : Nat) :
    Keeps l (l.flushDecoded decoded stop) := by
  unfold flushDecoded
  dsimp only
  split
  · exact { flushReference_keeps (l.checkReference stop) decoded with }
  · exact flushRaw_keeps l stop

theorem flushName_keeps (l : Lexer) (found : NamedReference.Found) (stop : Nat) (goesOn : Bool) :
    Keeps l
      (if l.returnState.isAttributeValue && !found.terminated && goesOn then l.flushRaw stop
      else if found.terminated then l.flushDecoded found.value stop
      else (l.reportAt .missingSemicolonAfterCharacterReference stop).flushDecoded found.value
        stop) := by
  split
  · exact flushRaw_keeps l stop
  · split
    · exact flushDecoded_keeps l found.value stop
    · exact { flushDecoded_keeps
        (l.reportAt .missingSemicolonAfterCharacterReference stop) found.value stop with }

theorem skip_moves (ha : l.again = false) (hk : Keeps l l') {count : Nat} {r : LexState}
    (hle : (l.cursor.here.drop count).length ≤ l.cursor.rest.length) :
    Moves l ((l'.skip count).goto r) := by
  have hchar : l'.cursor.char = l.cursor.char := by rw [hk.cursor]
  refine .byTaking hk.feeds.weaken (hk.again.trans ha) hchar ?_
  show (l'.cursor.here.drop count).length ≤ l.cursor.rest.length
  rw [hk.cursor]
  exact hle

theorem finishNumericReference_keeps (l : Lexer) (stop : Nat) :
    Keeps l (l.finishNumericReference stop) := by
  unfold finishNumericReference
  split
  · next cause _ => exact { flushDecoded_keeps (l.report cause) _ stop with }
  · exact flushDecoded_keeps l _ stop

section
variable (ha : l.again = false)
include ha

/-! ## Content -/

theorem onData_moves : Moves l (l.onData l.cursor.char) := by
  unfold onData
  split
  · exact .taking (.refl _) ha rfl
  · exact .taking (.refl _) ha rfl
  · exact .taking (.refl _) ha rfl
  · split
    · exact .taking (.refl _) ha rfl
    · exact .taking ((Feeds.refl _).append rfl) ha rfl
  · exact .taking ((Feeds.refl _).append (by split <;> rfl)) ha rfl

theorem onRcdata_moves : Moves l (l.onRcdata l.cursor.char) := by
  unfold onRcdata
  split
  · exact .taking (.refl _) ha rfl
  · exact .taking (.refl _) ha rfl
  · exact .taking (.refl _) ha rfl
  · split
    · exact .taking (.refl _) ha rfl
    · exact .taking ((Feeds.refl _).append rfl) ha rfl
  · exact .taking ((Feeds.refl _).append (by split <;> rfl)) ha rfl

theorem onRawText_moves : Moves l (l.onRawText l.cursor.char) := by
  unfold onRawText
  split
  · exact .taking (.refl _) ha rfl
  · exact .taking (.refl _) ha rfl
  · exact .taking ((Feeds.refl _).append (by split <;> rfl)) ha rfl

theorem onTagOpen_moves (hs : l.state = .tagOpen) : Moves l (l.onTagOpen l.cursor.char) := by
  have hr : l.rank = 1 := rank_of_state hs
  unfold onTagOpen
  split
  · exact .taking (.refl _) ha rfl
  · exact .taking (.refl _) ha rfl
  · exact .repeating ((Feeds.refl _).startAt rfl) rfl rfl hr (Nat.le_refl 0)
  · split
    · exact .repeating ((Feeds.refl _).startAt rfl) rfl rfl hr (Nat.le_refl 0)
    · exact .repeating ((Feeds.refl _).append rfl) rfl rfl hr (Nat.le_refl 0)
  · exact .repeating ((Feeds.refl _).append rfl) rfl rfl hr (Nat.le_refl 0)

theorem onEndTagOpen_moves (hs : l.state = .endTagOpen) :
    Moves l (l.onEndTagOpen l.cursor.char) := by
  have hr : l.rank = 1 := rank_of_state hs
  unfold onEndTagOpen
  split
  · exact .taking (.refl _) ha rfl
  · split
    · exact .repeating ((Feeds.refl _).startAt rfl) rfl rfl hr (Nat.le_refl 0)
    · exact .repeating ((Feeds.refl _).startAt rfl) rfl rfl hr (Nat.le_refl 0)
  · exact .repeating ((Feeds.refl _).append rfl) rfl rfl hr (Nat.le_refl 0)

theorem onTagName_moves : Moves l (l.onTagName l.cursor.char) := by
  unfold onTagName
  split
  · exact .taking (.refl _) ha rfl
  · next hc => exact .closing (.refl _) rfl ha rfl rfl hc rfl
  · exact .taking (.refl _) ha rfl
  · split
    · exact .taking ((Feeds.refl _).startAt rfl).push ha rfl
    · exact .taking (Feeds.refl _).push ha rfl

/-! ## End tags in text without tags -/

theorem onTextLessThanSign_moves (hs : IsTextState s) (hr : l.rank = 1) :
    Moves l (l.onTextLessThanSign s l.cursor.char) := by
  unfold onTextLessThanSign
  split
  · exact .taking (Feeds.refl _).hold ha rfl
  · rcases hs with rfl | rfl <;>
      exact .repeating ((Feeds.refl _).append rfl) rfl rfl hr (Nat.le_refl 0)

omit ha in
theorem restoreHeldBack_moves {r : Nat} (hs : IsTextState s) (hr : l.rank = r + 1) :
    Moves l ((l.restoreHeldBack s).reconsume s) := by
  rcases hs with rfl | rfl <;>
    exact .repeating ((Feeds.refl _).restore.append rfl) rfl rfl hr (Nat.zero_le r)

omit ha in
theorem onTextEndTagOpen_moves (hs : IsTextState s) (hr : l.rank = 2) :
    Moves l (l.onTextEndTagOpen s l.cursor.char) := by
  unfold onTextEndTagOpen
  split
  · split
    · rcases hs with rfl | rfl <;>
        exact .repeating (.refl _) rfl rfl hr (Nat.le_refl 1)
    · exact restoreHeldBack_moves hs hr
  · exact restoreHeldBack_moves hs hr

theorem onTextEndTagName_moves (hs : IsTextState s) (hr : l.rank = 1) :
    Moves l (l.onTextEndTagName s l.cursor.char) := by
  have hb : ∀ n, Feeds (n + 1) l.buffer l.promoteHeldBack.buffer := fun _ =>
    ((Feeds.refl _).commitHeldBack.startAt rfl).push
  unfold onTextEndTagName
  split
  · split
    · exact .taking ((hb 0).startAt rfl).push ha rfl
    · split
      · exact .taking (hb 1) ha rfl
      · split
        · next hc => exact .closing (hb 0) rfl ha rfl rfl (by simp_all) rfl
        · split
          · exact .taking (.refl _) ha rfl
          · exact restoreHeldBack_moves hs hr
  · exact restoreHeldBack_moves hs hr

/-! ## Attributes -/

theorem onBeforeAttributeName_moves (hs : l.state = .beforeAttributeName) :
    Moves l (l.onBeforeAttributeName l.cursor.char) := by
  have hr : l.rank = 1 := rank_of_state hs
  unfold onBeforeAttributeName
  split
  · next hc => exact afterName_moves hr (by rw [hc]; rfl)
  · next hc => exact afterName_moves hr (by rw [hc]; rfl)
  · next hc => exact afterName_moves hr (by rw [hc]; rfl)
  · exact .taking ((Feeds.refl _).startAt rfl).push ha rfl
  · next c h1 h2 _ hc =>
    split
    · exact .taking ((Feeds.refl _).append rfl) ha rfl
    · next hw => exact startName_moves hr (by rw [hc]; exact LexState.goesOnName_some h1 h2 hw)

theorem onAttributeName_moves (hs : l.state = .attributeName) :
    Moves l (l.onAttributeName l.cursor.char) := by
  have hr : LexState.goesOnName l.cursor.char = false → l.rank = 1 := fun h => by
    rw [rank, hs]
    simp [LexState.rank, h]
  unfold onAttributeName
  split
  · next hc =>
    have hn : LexState.goesOnName l.cursor.char = false := by rw [hc]; rfl
    exact afterName_moves (hr hn) hn
  · next hc =>
    have hn : LexState.goesOnName l.cursor.char = false := by rw [hc]; rfl
    exact afterName_moves (hr hn) hn
  · next hc =>
    have hn : LexState.goesOnName l.cursor.char = false := by rw [hc]; rfl
    exact afterName_moves (hr hn) hn
  · exact .taking ((Feeds.refl _).startAt rfl).finish ha rfl
  · next c h1 h2 _ hc =>
    split
    · next hw =>
      have hn : LexState.goesOnName l.cursor.char = false := by
        rw [hc]
        exact LexState.goesOnName_of_isBlank hw
      exact afterName_moves (hr hn) hn
    · split
      · exact .taking (Feeds.refl _).push ha rfl
      · exact .taking (Feeds.refl _).push ha rfl

theorem onAfterAttributeName_moves (hs : l.state = .afterAttributeName) :
    Moves l (l.onAfterAttributeName l.cursor.char) := by
  unfold onAfterAttributeName
  split
  · exact .taking (.refl _) ha rfl
  · exact .taking ((Feeds.refl _).startAt rfl).finish ha rfl
  · next hc => exact .closing (.refl _) rfl ha rfl rfl hc rfl
  · exact .taking (.refl _) ha rfl
  · next c h1 _ h2 hc =>
    split
    · exact .taking ((Feeds.refl _).append rfl) ha rfl
    · next hw =>
      have hn : LexState.goesOnName l.cursor.char = true := by
        rw [hc]
        exact LexState.goesOnName_some h1 h2 hw
      have hr : l.rank = 1 := by
        rw [rank, hs]
        simp [LexState.rank, hn]
      exact startName_moves hr hn

theorem onBeforeAttributeValue_moves (hs : l.state = .beforeAttributeValue) :
    Moves l (l.onBeforeAttributeValue l.cursor.char) := by
  have hr : l.rank = 1 := rank_of_state hs
  unfold onBeforeAttributeValue
  split
  · exact .taking ((Feeds.refl _).startAt rfl) ha rfl
  · exact .taking ((Feeds.refl _).startAt rfl) ha rfl
  · next hc => exact .closing (.refl _) rfl ha rfl rfl hc rfl
  · exact .repeating (.refl _) rfl rfl hr (Nat.le_refl 0)
  · split
    · exact .taking ((Feeds.refl _).append rfl) ha rfl
    · exact .repeating ((Feeds.refl _).startAt rfl) rfl rfl hr (Nat.le_refl 0)

theorem onAttributeValueQuoted_moves (quote : Char) (s : LexState) :
    Moves l (l.onAttributeValueQuoted quote s l.cursor.char) := by
  unfold onAttributeValueQuoted
  split
  · exact .taking (.refl _) ha rfl
  · split
    · exact .taking (Feeds.refl _).finish ha rfl
    · split
      · exact .taking (.refl _) ha rfl
      · exact .taking (Feeds.refl _).push ha rfl

theorem onAttributeValueUnquoted_moves : Moves l (l.onAttributeValueUnquoted l.cursor.char) := by
  unfold onAttributeValueUnquoted
  split
  · exact .taking (.refl _) ha rfl
  · next hc => exact .closing (.refl _) rfl ha rfl rfl hc rfl
  · exact .taking (.refl _) ha rfl
  · split
    · exact .taking ((Feeds.refl _).startAt rfl).push ha rfl
    · split
      · exact .taking (Feeds.refl _).push ha rfl
      · exact .taking (Feeds.refl _).push ha rfl

theorem onAfterAttributeValueQuoted_moves (hs : l.state = .afterAttributeValueQuoted) :
    Moves l (l.onAfterAttributeValueQuoted l.cursor.char) := by
  have hr : l.rank = 2 := rank_of_state hs
  unfold onAfterAttributeValueQuoted
  split
  · exact .taking (.refl _) ha rfl
  · next hc => exact .closing (.refl _) rfl ha rfl rfl hc rfl
  · exact .taking (.refl _) ha rfl
  · split
    · exact .taking ((Feeds.refl _).startAt rfl).push ha rfl
    · exact .repeating (.refl _) rfl rfl hr (Nat.le_refl 1)

theorem onSelfClosingStartTag_moves (hs : l.state = .selfClosingStartTag) :
    Moves l (l.onSelfClosingStartTag l.cursor.char) := by
  have hr : l.rank = 2 := rank_of_state hs
  unfold onSelfClosingStartTag
  split
  · next hc => exact .closing (.refl _) rfl ha rfl rfl hc rfl
  · exact .taking (.refl _) ha rfl
  · exact .repeating (.refl _) rfl rfl hr (Nat.le_refl 1)

/-! ## Comments and CDATA sections -/

theorem onBogusComment_moves : Moves l (l.onBogusComment l.cursor.char) := by
  unfold onBogusComment
  split
  · exact .taking (Feeds.refl _).finish ha rfl
  · exact .taking (.refl _) ha rfl
  · exact .taking (Feeds.refl _).push ha rfl

omit ha in
/-- Going on behind characters of the text leaves less of it. -/
theorem length_drop_here_le (hon : On cs l.cursor) {raw tail : List Char} {c : Char}
    (hh : l.cursor.here = (c :: raw) ++ tail) (hc : c ≠ '\n' ∧ c ≠ '\r') :
    (l.cursor.here.drop (c :: raw).length).length ≤ l.cursor.rest.length := by
  have hchar := hon.char_of_here hh hc.2
  rw [(hon.plain hchar hc.1).1, List.length_cons, List.drop_succ_cons, List.length_drop]
  exact Nat.sub_le _ _

theorem onMarkupDeclarationOpen_moves (hs : l.state = .markupDeclarationOpen)
    (hon : On cs l.cursor) : Moves l (l.onMarkupDeclarationOpen l.cursor.char) := by
  have hr : l.rank = 1 := rank_of_state hs
  unfold onMarkupDeclarationOpen
  split
  · next hp =>
    obtain ⟨tail, hh⟩ := List.isPrefixOf_iff_prefix.1 hp
    exact .byTaking ((Feeds.refl _).startAt rfl) ha rfl
      (length_drop_here_le hon hh.symm (by decide))
  · dsimp only
    split
    · next hp =>
      obtain ⟨tail, hh⟩ := List.isPrefixOf_iff_prefix.1 ((Bool.and_eq_true _ _).mp hp).1
      exact .byTaking ((Feeds.refl _).startAt rfl) ha rfl
        (length_drop_here_le hon hh.symm (by decide))
    · split
      · exact .taking ((Feeds.refl _).startAt rfl) ha rfl
      · exact .repeating ((Feeds.refl _).startAt rfl) rfl rfl hr (Nat.le_refl 0)

theorem onCommentStart_moves (hs : l.state = .commentStart) :
    Moves l (l.onCommentStart l.cursor.char) := by
  have hr : l.rank = 1 := rank_of_state hs
  unfold onCommentStart
  split
  · exact .taking (.refl _) ha rfl
  · exact .taking (Feeds.refl _).finish ha rfl
  · exact .repeating (.refl _) rfl rfl hr (Nat.le_refl 0)

theorem onCommentStartDash_moves (hs : l.state = .commentStartDash) :
    Moves l (l.onCommentStartDash l.cursor.char) := by
  have hr : l.rank = 1 := rank_of_state hs
  unfold onCommentStartDash
  split
  · exact .taking (.refl _) ha rfl
  · exact .taking (Feeds.refl _).finish ha rfl
  · exact .taking (.refl _) ha rfl
  · exact .repeating (Feeds.refl _).push rfl rfl hr (Nat.le_refl 0)

theorem onComment_moves : Moves l (l.onComment l.cursor.char) := by
  unfold onComment
  split
  · exact .taking (Feeds.refl _).push ha rfl
  · exact .taking (.refl _) ha rfl
  · exact .taking (.refl _) ha rfl
  · exact .taking (Feeds.refl _).push ha rfl

theorem onCommentLessThanSign_moves (hs : l.state = .commentLessThanSign) :
    Moves l (l.onCommentLessThanSign l.cursor.char) := by
  have hr : l.rank = 1 := rank_of_state hs
  unfold onCommentLessThanSign
  split
  · exact .taking (Feeds.refl _).push ha rfl
  · exact .taking (Feeds.refl _).push ha rfl
  · exact .repeating (.refl _) rfl rfl hr (Nat.le_refl 0)

theorem onCommentLessThanSignBang_moves (hs : l.state = .commentLessThanSignBang) :
    Moves l (l.onCommentLessThanSignBang l.cursor.char) := by
  have hr : l.rank = 1 := rank_of_state hs
  unfold onCommentLessThanSignBang
  split
  · exact .taking (.refl _) ha rfl
  · exact .repeating (.refl _) rfl rfl hr (Nat.le_refl 0)

theorem onCommentLessThanSignBangDash_moves (hs : l.state = .commentLessThanSignBangDash) :
    Moves l (l.onCommentLessThanSignBangDash l.cursor.char) := by
  have hr : l.rank = 2 := rank_of_state hs
  unfold onCommentLessThanSignBangDash
  split
  · exact .taking (.refl _) ha rfl
  · exact .repeating (.refl _) rfl rfl hr (Nat.le_refl 1)

omit ha in
theorem onCommentLessThanSignBangDashDash_moves
    (hs : l.state = .commentLessThanSignBangDashDash) :
    Moves l (l.onCommentLessThanSignBangDashDash l.cursor.char) := by
  have hr : l.rank = 2 := rank_of_state hs
  unfold onCommentLessThanSignBangDashDash
  split
  · exact .repeating (.refl _) rfl rfl hr (Nat.le_refl 1)
  · exact .repeating (.refl _) rfl rfl hr (Nat.le_refl 1)
  · exact .repeating (.refl _) rfl rfl hr (Nat.le_refl 1)

theorem onCommentEndDash_moves (hs : l.state = .commentEndDash) :
    Moves l (l.onCommentEndDash l.cursor.char) := by
  have hr : l.rank = 1 := rank_of_state hs
  unfold onCommentEndDash
  split
  · exact .taking (.refl _) ha rfl
  · exact .taking (.refl _) ha rfl
  · exact .repeating (Feeds.refl _).push rfl rfl hr (Nat.le_refl 0)

theorem onCommentEnd_moves (hs : l.state = .commentEnd) :
    Moves l (l.onCommentEnd l.cursor.char) := by
  have hr : l.rank = 1 := rank_of_state hs
  unfold onCommentEnd
  split
  · exact .taking (Feeds.refl _).finish ha rfl
  · exact .taking (.refl _) ha rfl
  · exact .taking (Feeds.refl _).push ha rfl
  · exact .taking (.refl _) ha rfl
  · exact .repeating (Feeds.refl _).push rfl rfl hr (Nat.le_refl 0)

theorem onCommentEndBang_moves (hs : l.state = .commentEndBang) :
    Moves l (l.onCommentEndBang l.cursor.char) := by
  have hr : l.rank = 1 := rank_of_state hs
  unfold onCommentEndBang
  split
  · exact .taking (Feeds.refl _).push ha rfl
  · exact .taking (Feeds.refl _).finish ha rfl
  · exact .taking (.refl _) ha rfl
  · exact .repeating (Feeds.refl _).push rfl rfl hr (Nat.le_refl 0)

theorem onCdataSection_moves : Moves l (l.onCdataSection l.cursor.char) := by
  unfold onCdataSection
  split
  · exact .taking (.refl _) ha rfl
  · exact .taking (.refl _) ha rfl
  · exact .taking (Feeds.refl _).push ha rfl

theorem onCdataSectionBracket_moves (hs : l.state = .cdataSectionBracket) :
    Moves l (l.onCdataSectionBracket l.cursor.char) := by
  have hr : l.rank = 1 := rank_of_state hs
  unfold onCdataSectionBracket
  split
  · exact .taking (.refl _) ha rfl
  · exact .repeating (Feeds.refl _).push rfl rfl hr (Nat.le_refl 0)

theorem onCdataSectionEnd_moves (hs : l.state = .cdataSectionEnd) :
    Moves l (l.onCdataSectionEnd l.cursor.char) := by
  have hr : l.rank = 1 := rank_of_state hs
  unfold onCdataSectionEnd
  split
  · exact .taking (Feeds.refl _).push ha rfl
  · exact .taking (Feeds.refl _).finish ha rfl
  · exact .repeating (Feeds.refl _).push rfl rfl hr (Nat.le_refl 0)

end

/-! ## Character references -/

section
variable {f : Nat} (ha : l.again = false)
  (hret : Reaches cs l.locator l.HasGap taken l.buffer f l.returnState)
include ha hret

omit ha in
/-- Back in the state behind a reference the lexer goes on with the current character. -/
theorem return_moves (hk : Keeps l l') {r : Nat} (hr : l.rank = r + 1)
    (hle : LexState.backRank l.cursor.char l.returnState ≤ r) :
    Moves l (l'.reconsume l'.returnState) := by
  refine .repeating hk.feeds.weaken rfl hk.cursor hr ?_
  have hrank : (l'.reconsume l'.returnState).rank =
      LexState.backRank l.cursor.char l.returnState := by
    rw [← hret.rank_eq l.returnState, ← hk.cursor, ← hk.returnState]
    rfl
  rw [hrank]
  exact hle

theorem onCharacterReference_moves (hs : l.state = .characterReference) :
    Moves l (l.onCharacterReference l.cursor.char) := by
  have hr := rank_of_state hs
  have hk := flushReference_keeps l "&"
  unfold onCharacterReference
  split
  · exact .taking (.refl _) ha rfl
  · next c _ hc =>
    split
    · next hw =>
      have hw' : l.cursor.char.any Char.isAlphanum = true := by simp [hc, hw]
      obtain ⟨h2, h1, -⟩ := @LexState.rank_of_isAlphanum l.returnState _ hw'
      exact .repeating (.refl _) rfl rfl (hr.trans h2) (Nat.le_of_eq h1)
    · next hw =>
      have hw' : ¬ l.cursor.char.any Char.isAlphanum = true := by simp [hc, hw]
      exact return_moves hret hk (hr.trans (LexState.rank_of_not_isAlphanum hw').1) (Nat.le_refl _)
  · next hc =>
    have hw' : ¬ l.cursor.char.any Char.isAlphanum = true := by simp [hc]
    exact return_moves hret hk (hr.trans (LexState.rank_of_not_isAlphanum hw').1) (Nat.le_refl _)

omit hret in
theorem onNamedCharacterReference_moves (hs : l.state = .namedCharacterReference)
    (hon : On cs l.cursor) : Moves l l.onNamedCharacterReference := by
  unfold onNamedCharacterReference
  split
  · exact .repeating (flushReference_keeps l "&").feeds.weaken rfl rfl (rank_of_state hs)
      (Nat.le_refl _)
  · next found hfound =>
    obtain ⟨raw, tail, hh, hlen, hne, hchars, -⟩ := NamedReference.match?_eq_some hfound
    cases raw with
    | nil => exact absurd rfl hne
    | cons c raw =>
      have hplain := isReferenceChar_plain (hchars c (List.mem_cons_self ..))
      have hle := length_drop_here_le hon hh ⟨hplain.1, hplain.2.1⟩
      rw [← hlen]
      exact skip_moves ha (flushName_keeps l found _ _) hle

theorem onAmbiguousAmpersand_moves (hs : l.state = .ambiguousAmpersand) :
    Moves l (l.onAmbiguousAmpersand l.cursor.char) := by
  have hr := rank_of_state hs
  unfold onAmbiguousAmpersand
  split
  · next hc =>
    have hw : ¬ l.cursor.char.any Char.isAlphanum = true := by rw [hc]; decide
    have hk : Keeps l (l.report .unknownNamedCharacterReference) := { Keeps.refl l with }
    exact return_moves hret hk (hr.trans (LexState.rank_of_not_isAlphanum hw).2) (Nat.le_refl _)
  · next c _ hc =>
    split
    · exact .taking (flushReference_keeps l _).feeds.weaken ha rfl
    · next hw =>
      have hw' : ¬ l.cursor.char.any Char.isAlphanum = true := by simp [hc, hw]
      exact return_moves hret (.refl l) (hr.trans (LexState.rank_of_not_isAlphanum hw').2)
        (Nat.le_refl _)
  · next hc =>
    have hw : ¬ l.cursor.char.any Char.isAlphanum = true := by simp [hc]
    exact return_moves hret (.refl l) (hr.trans (LexState.rank_of_not_isAlphanum hw).2)
      (Nat.le_refl _)

omit hret in
theorem onNumericCharacterReference_moves (hs : l.state = .numericCharacterReference) :
    Moves l (l.onNumericCharacterReference l.cursor.char) := by
  have hr : l.rank = 1 + LexState.backRank l.cursor.char l.returnState + 1 := by
    rw [rank_of_state hs, LexState.rank]
    omega
  unfold onNumericCharacterReference
  split
  · exact .taking (.refl _) ha rfl
  · exact .taking (.refl _) ha rfl
  · exact .repeating (.refl _) rfl rfl hr (Nat.le_refl _)

section
variable {isDigit : Char → Bool} {radix : Nat} {digits : LexState}
  (hd : (isDigit = Char.isDigit ∧ digits = .decimalCharacterReference) ∨
    (isDigit = CharClass.isHexDigit ∧ digits = .hexadecimalCharacterReference))
include hd

omit ha in
theorem onNumericReferenceStart_moves
    (hr : l.rank = LexState.backRank l.cursor.char l.returnState + 1) :
    Moves l (l.onNumericReferenceStart isDigit digits l.cursor.char) := by
  unfold onNumericReferenceStart
  split
  · next hw =>
    refine .repeating (.refl _) rfl rfl hr ?_
    have hrank : (l.reconsume digits).rank = 0 := by
      have hdigits := @LexState.rank_digits l.returnState l.cursor.char _ _ hd
      rw [if_pos hw] at hdigits
      exact hdigits
    rw [hrank]
    exact Nat.zero_le _
  · have hk := flushRaw_keeps (l.report .absenceOfDigitsInNumericCharacterReference)
      l.cursor.start
    have hk' : Keeps l _ := { hk with }
    exact return_moves hret hk' hr (Nat.le_refl _)

theorem onNumericReferenceDigits_moves (hs : l.state = digits) :
    Moves l (l.onNumericReferenceDigits isDigit radix digits l.cursor.char) := by
  have hr := (rank_of_state hs).trans (LexState.rank_digits hd)
  have hend : ¬ l.cursor.char.any isDigit = true →
      Moves l (((l.report .missingSemicolonAfterCharacterReference).finishNumericReference
        l.cursor.start).reconsume l.returnState) := by
    intro hw
    rw [if_neg hw] at hr
    have hk := finishNumericReference_keeps (l.report .missingSemicolonAfterCharacterReference)
      l.cursor.start
    have hk' : Keeps l _ := { hk with }
    have hm := return_moves hret hk' hr (Nat.le_refl _)
    rwa [hk.returnState] at hm
  unfold onNumericReferenceDigits
  split
  · next c hc =>
    split
    · exact .taking (.refl _) ha rfl
    · next hw =>
      split
      · have hk := finishNumericReference_keeps l l.cursor.index
        -- what it keeps is all that counts, and it would be unfolded otherwise
        generalize l.finishNumericReference l.cursor.index = x at hk
        exact .taking hk.feeds.weaken (hk.again.trans ha) hk.cursor
      · exact hend (by simp [hc, hw])
  · next hc => exact hend (by simp [hc])

end

end

/-! ## Interpolations -/

section
variable (ha : l.again = false)
include ha

omit ha in
/-- What turns out to be text outside of double braces is gone on with there. -/
theorem outer_moves (hb : Feeds 2 l.buffer l'.buffer) (ha' : l'.again = true)
    (hc : l'.cursor = l.cursor) (ho : l'.state = .data ∨ l'.state = .rcdata) (hr : l.rank = 1) :
    Moves l l' := by
  refine .repeating hb ha' hc hr ?_
  rcases ho with hs | hs <;> exact Nat.le_of_eq (rank_of_state hs)

theorem onInterpolationStart_moves (hs : l.state = .interpolationStart)
    (ho : l.outerState = .data ∨ l.outerState = .rcdata) :
    Moves l (l.onInterpolationStart l.cursor.char) := by
  unfold onInterpolationStart
  split
  · exact .taking ((Feeds.refl _).startAt rfl).push.finish ha rfl
  · refine outer_moves ((Feeds.refl _).append ?_) rfl rfl ho (rank_of_state hs)
    rcases ho with ho | ho <;> rw [ho] <;> rfl

theorem onInterpolationData_moves (hs : l.state = .interpolationData)
    (ho : l.outerState = .data ∨ l.outerState = .rcdata) :
    Moves l (l.onInterpolationData l.cursor.char) := by
  unfold onInterpolationData
  split
  · exact .taking (.refl _) ha rfl
  · exact .taking (.refl _) ha rfl
  · next hc =>
    have hr : l.rank = 1 := by rw [rank_of_state hs, hc]; rfl
    exact outer_moves (.refl _) rfl rfl ho hr
  · exact .taking ((Feeds.refl _).append (by split <;> rfl)) ha rfl

theorem onInterpolationEnd_moves (hs : l.state = .interpolationEnd) :
    Moves l (l.onInterpolationEnd l.cursor.char) := by
  unfold onInterpolationEnd
  split
  · exact .taking ((Feeds.refl _).startAt rfl).push.finish ha rfl
  · have hr := LexState.backRank_le_one l.cursor.char .interpolationData
    exact .repeating ((Feeds.refl _).append rfl) rfl rfl (rank_of_state hs) hr

end

/-- A step in any state takes the current character in the end. -/
theorem step_moves (h : Enters cs taken l l.state) : Moves l l.step := by
  have ha := h.quiet.1
  unfold step
  dsimp only
  generalize hs : l.state = s at h
  have hst := h.stage
  cases s with
  | data => exact onData_moves ha
  | rcdata => exact onRcdata_moves ha
  | rawText => exact onRawText_moves ha
  | tagOpen => exact onTagOpen_moves ha hs
  | endTagOpen => exact onEndTagOpen_moves ha hs
  | tagName => exact onTagName_moves ha
  | rcdataLessThanSign => exact onTextLessThanSign_moves ha (.inl rfl) (rank_of_state hs)
  | rcdataEndTagOpen => exact onTextEndTagOpen_moves (.inl rfl) (rank_of_state hs)
  | rcdataEndTagName => exact onTextEndTagName_moves ha (.inl rfl) (rank_of_state hs)
  | rawTextLessThanSign => exact onTextLessThanSign_moves ha (.inr rfl) (rank_of_state hs)
  | rawTextEndTagOpen => exact onTextEndTagOpen_moves (.inr rfl) (rank_of_state hs)
  | rawTextEndTagName => exact onTextEndTagName_moves ha (.inr rfl) (rank_of_state hs)
  | beforeAttributeName => exact onBeforeAttributeName_moves ha hs
  | attributeName => exact onAttributeName_moves ha hs
  | afterAttributeName => exact onAfterAttributeName_moves ha hs
  | beforeAttributeValue => exact onBeforeAttributeValue_moves ha hs
  | attributeValueDoubleQuoted => exact onAttributeValueQuoted_moves ha _ _
  | attributeValueSingleQuoted => exact onAttributeValueQuoted_moves ha _ _
  | attributeValueUnquoted => exact onAttributeValueUnquoted_moves ha
  | afterAttributeValueQuoted => exact onAfterAttributeValueQuoted_moves ha hs
  | selfClosingStartTag => exact onSelfClosingStartTag_moves ha hs
  | bogusComment => exact onBogusComment_moves ha
  | markupDeclarationOpen => exact onMarkupDeclarationOpen_moves ha hs h.steady.on
  | commentStart => exact onCommentStart_moves ha hs
  | commentStartDash => exact onCommentStartDash_moves ha hs
  | comment => exact onComment_moves ha
  | commentLessThanSign => exact onCommentLessThanSign_moves ha hs
  | commentLessThanSignBang => exact onCommentLessThanSignBang_moves ha hs
  | commentLessThanSignBangDash => exact onCommentLessThanSignBangDash_moves ha hs
  | commentLessThanSignBangDashDash => exact onCommentLessThanSignBangDashDash_moves hs
  | commentEndDash => exact onCommentEndDash_moves ha hs
  | commentEnd => exact onCommentEnd_moves ha hs
  | commentEndBang => exact onCommentEndBang_moves ha hs
  | cdataSection => exact onCdataSection_moves ha
  | cdataSectionBracket => exact onCdataSectionBracket_moves ha hs
  | cdataSectionEnd => exact onCdataSectionEnd_moves ha hs
  | characterReference => exact onCharacterReference_moves ha (InReference.reaches hst) hs
  | namedCharacterReference => exact onNamedCharacterReference_moves ha hs h.steady.on
  | ambiguousAmpersand => exact onAmbiguousAmpersand_moves ha (AfterAmpersand.reaches hst) hs
  | numericCharacterReference => exact onNumericCharacterReference_moves ha hs
  | hexadecimalCharacterReferenceStart =>
    obtain ⟨x, -, hr, -⟩ := hst
    exact onNumericReferenceStart_moves hr.reaches (.inr ⟨rfl, rfl⟩)
      ((rank_of_state hs).trans (Nat.add_comm ..))
  | decimalCharacterReferenceStart =>
    exact onNumericReferenceStart_moves hst.1.reaches (.inl ⟨rfl, rfl⟩)
      ((rank_of_state hs).trans (Nat.add_comm ..))
  | hexadecimalCharacterReference =>
    obtain ⟨x, ds, -, hr, -⟩ := hst
    exact onNumericReferenceDigits_moves ha hr.reaches (.inr ⟨rfl, rfl⟩) hs
  | decimalCharacterReference =>
    obtain ⟨ds, hr, -⟩ := hst
    exact onNumericReferenceDigits_moves ha hr.reaches (.inl ⟨rfl, rfl⟩) hs
  | interpolationStart => exact onInterpolationStart_moves ha hs hst.1
  | interpolationData => exact onInterpolationData_moves ha hs hst.1.outer
  | interpolationEnd => exact onInterpolationEnd_moves ha hs

end Lexer
end TemplateSyntax
