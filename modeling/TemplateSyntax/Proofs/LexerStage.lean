import TemplateSyntax.Markup.Lexer.Pull
import TemplateSyntax.Proofs.Cursor
import TemplateSyntax.Proofs.Reference
import TemplateSyntax.Proofs.TokenBuffer

/-! # What a lexer has read in each state

`Stage` is the invariant of the lexer: one line for each group of states says how far the tokens
reach and what stands in the text behind them.  In content and tags the tokens reach up to the
reading position, or to the mark of a construct that is not decided yet.  In a character reference
they reach up to its start, in a state that the lexer goes back to.  The end of the text in double
braces or in front of a value is taken in a state of another group.

A step starts from `Enters` and ends in `Sound`, which is `Stage` again or, at the end of the
text, tokens that can be finished. -/

namespace TemplateSyntax

open Text (byteLength From Between)

/-- The tokens reach up to `f` in a state that character references are read in. -/
def Reaches (cs : List Char) (l : Locator) (gap : Nat → Prop) (taken : List Token)
    (b : TokenBuffer) (f : Nat) : LexState → Prop
  | .data | .rcdata => Builds cs l gap taken b .content f
  | .attributeValueDoubleQuoted => BuildsValue cs l gap taken b (some '"') f
  | .attributeValueSingleQuoted => BuildsValue cs l gap taken b (some '\'') f
  | .attributeValueUnquoted => BuildsValue cs l gap taken b none f
  | .interpolationData => BuildsMustache cs l gap taken b f
  | _ => False

/-- An interpolation that starts at `start` stands in text of the state `outer`. -/
structure Surrounded (cs : List Char) (outer : LexState) (start : Nat) : Prop where
  outer : outer = .data ∨ outer = .rcdata
  start_le : start ≤ byteLength cs

namespace Lexer

/-- Whether a gap is on record at a template index. -/
def HasGap (l : Lexer) (x : Nat) : Prop := l.locator.host x ∈ l.gaps

/-- Where the text goes on: at the current character, or behind it. -/
def frontier (l : Lexer) : Bool → Nat
  | true => l.cursor.start
  | false => l.cursor.index

/-- The lexer has read the characters `raw` of a character reference, up to `f`. -/
structure InReference (cs : List Char) (taken : List Token) (l : Lexer) (raw : List Char)
    (f : Nat) : Prop where
  between : Between cs l.refStart raw f
  text : From cs l.refStart l.refText
  chars : ∀ c ∈ raw, isReferenceChar c = true
  noGap : ∀ x, l.refStart ≤ x → x ≤ f → ¬ l.HasGap x
  reaches : Reaches cs l.locator l.HasGap taken l.buffer l.refStart l.returnState
  surrounded : l.returnState = .interpolationData → Surrounded cs l.outerState l.interpolationStart

/-- The lexer has read the digits `ds` of a numeric character reference.  In front of the first
digit it is on one. -/
structure ReadsDigits (l : Lexer) (isDigit : Char → Bool) (radix : Nat) (here : Bool)
    (ds : List Char) : Prop where
  digits : ∀ d ∈ ds, isDigit d = true
  value : l.charCode = min (numeral radix ds) 0x110000
  first : ds = [] → here = true ∧ l.cursor.char.any isDigit = true

/-- An `&` that starts no reference was appended, and letters and digits behind it up to `f`. -/
structure AfterAmpersand (cs : List Char) (taken : List Token) (l : Lexer) (f : Nat) : Prop where
  reaches : Reaches cs l.locator l.HasGap taken l.buffer f l.returnState
  surrounded : l.returnState = .interpolationData → Surrounded cs l.outerState l.interpolationStart
  kind : l.returnState.isAttributeValue = false →
    l.buffer.current.map PendingToken.kind = some l.returnState.textKind

/-- What the lexer has read in the state `s`.  `here` tells whether the current character is
still to be taken in that state. -/
def Stage (cs : List Char) (taken : List Token) (l : Lexer) (here : Bool) (s : LexState) : Prop :=
  let f := l.frontier here
  match s with
  | .data | .rcdata =>
    Builds cs l.locator l.HasGap taken l.buffer .content f ∨
      (here = true ∧ l.cursor.char = none ∧
        BuildsMustache cs l.locator l.HasGap taken l.buffer f)
  | .rawText => Builds cs l.locator l.HasGap taken l.buffer .content f
  | .tagOpen | .endTagOpen | .markupDeclarationOpen | .rcdataLessThanSign
  | .rawTextLessThanSign =>
    l.mark ≤ f ∧ Builds cs l.locator l.HasGap taken l.buffer .content l.mark
  | .rcdataEndTagOpen | .rcdataEndTagName | .rawTextEndTagOpen | .rawTextEndTagName =>
    l.mark ≤ f ∧ Holds cs l.locator l.HasGap taken l.buffer l.mark
  | .tagName | .attributeName =>
    Builds cs l.locator l.HasGap taken l.buffer .tag f ∧ NameUpTo cs l.HasGap l.buffer f
  | .beforeAttributeName | .afterAttributeName | .beforeAttributeValue
  | .afterAttributeValueQuoted =>
    Builds cs l.locator l.HasGap taken l.buffer .tag f
  | .selfClosingStartTag =>
    l.mark ≤ f ∧ Builds cs l.locator l.HasGap taken l.buffer .tag l.mark
  | .attributeValueDoubleQuoted =>
    BuildsValue cs l.locator l.HasGap taken l.buffer (some '"') f
  | .attributeValueSingleQuoted =>
    BuildsValue cs l.locator l.HasGap taken l.buffer (some '\'') f
  | .attributeValueUnquoted =>
    BuildsValue cs l.locator l.HasGap taken l.buffer none f ∨
      (here = true ∧ l.cursor.char = none ∧
        Builds cs l.locator l.HasGap taken l.buffer .tag f)
  | .bogusComment | .commentStart | .commentStartDash | .comment | .commentLessThanSign
  | .commentLessThanSignBang | .commentLessThanSignBangDash | .commentLessThanSignBangDashDash
  | .commentEndDash | .commentEnd | .commentEndBang | .cdataSection | .cdataSectionBracket
  | .cdataSectionEnd =>
    l.buffer.current.isSome ∧ Builds cs l.locator l.HasGap taken l.buffer .content f
  | .characterReference | .namedCharacterReference => l.InReference cs taken ['&'] f
  | .ambiguousAmpersand => l.AfterAmpersand cs taken f
  | .numericCharacterReference => l.InReference cs taken ['&', '#'] f
  | .decimalCharacterReferenceStart => l.InReference cs taken ['&', '#'] f ∧ l.charCode = 0
  | .hexadecimalCharacterReferenceStart =>
    ∃ x, (x = 'x' ∨ x = 'X') ∧ l.InReference cs taken ['&', '#', x] f ∧ l.charCode = 0
  | .decimalCharacterReference =>
    ∃ ds, l.InReference cs taken ('&' :: '#' :: ds) f ∧ l.ReadsDigits Char.isDigit 10 here ds
  | .hexadecimalCharacterReference =>
    ∃ x ds, (x = 'x' ∨ x = 'X') ∧ l.InReference cs taken ('&' :: '#' :: x :: ds) f ∧
      l.ReadsDigits CharClass.isHexDigit 16 here ds
  | .interpolationStart =>
    (l.outerState = .data ∨ l.outerState = .rcdata) ∧ Between cs l.mark ['{'] f ∧
      Builds cs l.locator l.HasGap taken l.buffer .content l.mark
  | .interpolationData =>
    Surrounded cs l.outerState l.interpolationStart ∧ BuildsMustache cs l.locator l.HasGap taken l.buffer f
  | .interpolationEnd =>
    Surrounded cs l.outerState l.interpolationStart ∧ Between cs l.mark ['}'] f ∧
      (∀ x, l.mark ≤ x → x ≤ f → ¬ l.HasGap x) ∧
      BuildsMustache cs l.locator l.HasGap taken l.buffer l.mark

end Lexer

/-- What the buffer is in the middle of, in whatever state that holds no text back. -/
inductive Building (cs : List Char) (l : Locator) (gap : Nat → Prop) (taken : List Token)
    (b : TokenBuffer) : Prop
  | token {m : Mode} {f : Nat} (h : Builds cs l gap taken b m f)
  | value {q : Option Char} {f : Nat} (h : BuildsValue cs l gap taken b q f)
  | mustache {f : Nat} (h : BuildsMustache cs l gap taken b f)

namespace Building

variable {cs : List Char} {l : Locator} {gap : Nat → Prop} {taken : List Token} {b : TokenBuffer}

theorem stream (h : Building cs l gap taken b) : ∃ m p, Stream cs l gap (taken ++ b.ready) m p := by
  cases h with
  | token h => exact h.stream
  | value h => exact h.stream
  | mustache h => exact h.stream

theorem notHeld (h : Building cs l gap taken b) : b.heldBack = none := by
  cases h with
  | token h => exact h.notHeld
  | value h => exact h.notHeld
  | mustache h => exact h.notHeld

end Building

theorem Reaches.building {cs : List Char} {l : Locator} {gap : Nat → Prop} {taken : List Token}
    {b : TokenBuffer} {f : Nat} {r : LexState} (h : Reaches cs l gap taken b f r) :
    Building cs l gap taken b := by
  cases r with
  | data | rcdata => exact .token h
  | attributeValueDoubleQuoted | attributeValueSingleQuoted | attributeValueUnquoted => exact .value h
  | interpolationData => exact .mustache h
  | _ => exact False.elim h

/-- Whether text is held back in a state. -/
def LexState.holdsBack : LexState → Bool
  | .rcdataEndTagOpen | .rcdataEndTagName | .rawTextEndTagOpen | .rawTextEndTagName => true
  | _ => false

/-- The cursor is on a character of the text, the gaps behind it are on record, and nothing that
was relied on failed. -/
structure Steady (cs : List Char) (l : Locator) (c : Cursor) (gaps : Array Nat)
    (breaches : List Breach) : Prop where
  size : l.index.size = byteLength cs
  on : On cs c
  ahead : ∀ x, c.start ≤ x → (l.host x ∈ gaps ↔ c.dropped? = some x)
  noBreach : breaches = []

theorem Cursor.char_ne_none {c : Cursor} {ch : Char} (h : c.char = some ch) : c.char ≠ none := by
  simp [h]

namespace Steady

variable {cs : List Char} {l : Locator} {c : Cursor} {gaps : Array Nat} {br : List Breach}

theorem check (h : Steady cs l c gaps br) {i : Nat} (hi : i ≤ byteLength cs) :
    Steady cs l c gaps (Breach.expect (i ≤ l.index.size) .indexOutsideText ++ br) :=
  { h with noBreach := by simp [h.noBreach, h.size, hi] }

/-- A diagnostic at the current character is one in the text. -/
theorem checkHere (h : Steady cs l c gaps br) :
    Steady cs l c gaps (Breach.expect (c.start ≤ l.index.size) .indexOutsideText ++ br) :=
  h.check h.on.start_le_size

/-- There is no gap behind the start of a character that is no line feed. -/
theorem noGap (h : Steady cs l c gaps br) {ch : Char} (hc : c.char = some ch) (hch : ch ≠ '\n')
    {x : Nat} (hx : c.start ≤ x) : l.host x ∉ gaps := by
  rw [h.ahead x hx, (h.on.plain hc hch).2.2]
  exact nofun

end Steady

/-- The lexer takes the current character in the state `s`. -/
structure Enters (cs : List Char) (taken : List Token) (l : Lexer) (s : LexState) : Prop where
  steady : Steady cs l.locator l.cursor l.gaps l.breaches
  quiet : l.again = false ∧ l.finished = false
  stage : l.Stage cs taken true s

/-- The lexer behind a step: it goes on with the current character or with the next one, or it
has taken the end of the text and can finish its tokens. -/
structure Sound (cs : List Char) (taken : List Token) (l : Lexer) : Prop where
  size : l.locator.index.size = byteLength cs
  noBreach : l.breaches = []
  running : l.finished = false
  stays : l.again = true →
    Steady cs l.locator l.cursor l.gaps l.breaches ∧ l.Stage cs taken true l.state
  moves : l.again = false → l.cursor.char ≠ none →
    From cs l.cursor.index l.cursor.rest ∧ (∀ x, l.cursor.index ≤ x → ¬ l.HasGap x) ∧
      l.Stage cs taken false l.state
  ended : l.again = false → l.cursor.char = none →
    Rests cs l.locator l.HasGap taken
      ((l.buffer.commitHeldBack l.locator l.cursor.index).commitCurrent l.locator l.cursor.index)

namespace Sound

variable {cs : List Char} {taken : List Token} {l : Lexer}

/-- A step that does not take the current character. -/
theorem repeats (h : Steady cs l.locator l.cursor l.gaps l.breaches) (hf : l.finished = false)
    (ha : l.again = true) (hs : l.Stage cs taken true l.state) : Sound cs taken l where
  size := h.size
  noBreach := h.noBreach
  running := hf
  stays := fun _ => ⟨h, hs⟩
  moves := by simp [ha]
  ended := by simp [ha]

/-- A step that sets the reading position. -/
theorem jumps (hl : l.locator.index.size = byteLength cs) (hb : l.breaches = [])
    (hq : l.again = false ∧ l.finished = false) (hc : l.cursor.char ≠ none)
    (hn : From cs l.cursor.index l.cursor.rest)
    (hg : ∀ x, l.cursor.index ≤ x → ¬ l.HasGap x) (hs : l.Stage cs taken false l.state) :
    Sound cs taken l where
  size := hl
  noBreach := hb
  running := hq.2
  stays := by simp [hq.1]
  moves := fun _ _ => ⟨hn, hg, hs⟩
  ended := fun _ h => absurd h hc

/-- A step that takes the current character. -/
theorem takes (h : Steady cs l.locator l.cursor l.gaps l.breaches)
    (hq : l.again = false ∧ l.finished = false) (hc : l.cursor.char ≠ none)
    (hs : l.Stage cs taken false l.state) : Sound cs taken l := by
  refine .jumps h.size h.noBreach hq hc h.on.next (fun x hx => ?_) hs
  have hle := h.on.start_le_index
  rw [Lexer.HasGap, h.ahead x (by omega)]
  intro hd
  have := h.on.dropped_lt hd
  omega

/-- A step that takes the end of the text. -/
theorem ends (h : Steady cs l.locator l.cursor l.gaps l.breaches)
    (hq : l.again = false ∧ l.finished = false) (hc : l.cursor.char = none)
    (hr : Rests cs l.locator l.HasGap taken
      ((l.buffer.commitHeldBack l.locator (byteLength cs)).commitCurrent l.locator
        (byteLength cs))) : Sound cs taken l where
  size := h.size
  noBreach := h.noBreach
  running := hq.2
  stays := by simp [hq.1]
  moves := fun _ hn => absurd hc hn
  ended := fun _ _ => by rw [(h.on.eof hc).2.1]; exact hr

end Sound

namespace Lexer

variable {cs : List Char} {taken : List Token} {l : Lexer} {s : LexState}

/-- Where no text is held back, the buffer is in the middle of something. -/
theorem Stage.building {here : Bool} (h : l.Stage cs taken here s) (hs : s.holdsBack = false) :
    Building cs l.locator l.HasGap taken l.buffer := by
  cases s with
  | rcdataEndTagOpen | rcdataEndTagName | rawTextEndTagOpen | rawTextEndTagName => cases hs
  | data | rcdata =>
    rcases h with h | ⟨-, -, h⟩
    · exact .token h
    · exact .mustache h
  | rawText | beforeAttributeName | afterAttributeName | beforeAttributeValue
  | afterAttributeValueQuoted => exact .token h
  | tagName | attributeName => exact .token h.1
  | tagOpen | endTagOpen | markupDeclarationOpen | rcdataLessThanSign | rawTextLessThanSign
  | selfClosingStartTag => exact .token h.2
  | attributeValueDoubleQuoted | attributeValueSingleQuoted => exact .value h
  | attributeValueUnquoted =>
    rcases h with h | ⟨-, -, h⟩
    · exact .value h
    · exact .token h
  | bogusComment | commentStart | commentStartDash | comment | commentLessThanSign
  | commentLessThanSignBang | commentLessThanSignBangDash | commentLessThanSignBangDashDash
  | commentEndDash | commentEnd | commentEndBang | cdataSection | cdataSectionBracket
  | cdataSectionEnd => exact .token h.2
  | characterReference | namedCharacterReference | numericCharacterReference =>
    exact (InReference.reaches h).building
  | ambiguousAmpersand => exact (AfterAmpersand.reaches h).building
  | decimalCharacterReferenceStart => exact h.1.reaches.building
  | hexadecimalCharacterReferenceStart =>
    obtain ⟨x, hx, hr, hcode⟩ := h
    exact hr.reaches.building
  | decimalCharacterReference =>
    obtain ⟨ds, hr, hd⟩ := h
    exact hr.reaches.building
  | hexadecimalCharacterReference =>
    obtain ⟨x, ds, hx, hr, hd⟩ := h
    exact hr.reaches.building
  | interpolationStart => exact .token h.2.2
  | interpolationData => exact .mustache h.2
  | interpolationEnd => exact .mustache h.2.2.2

/-- Where text is held back, no token is being built. -/
theorem Stage.holds {here : Bool} (h : l.Stage cs taken here s) (hs : s.holdsBack = true) :
    Holds cs l.locator l.HasGap taken l.buffer l.mark := by
  cases s with
  | rcdataEndTagOpen | rcdataEndTagName | rawTextEndTagOpen | rawTextEndTagName => exact h.2
  | _ => cases hs

/-- The tokens are a stream in every state. -/
theorem Stage.stream {here : Bool} (h : l.Stage cs taken here s) :
    ∃ m p, Stream cs l.locator l.HasGap (taken ++ l.buffer.ready) m p := by
  cases hs : s.holdsBack with
  | true => exact (h.holds hs).builds.stream
  | false => exact (h.building hs).stream

/-- Going on behind characters of one byte that stand at the cursor. -/
theorem skip_spec (h : Enters cs taken l s) {raw tail : List Char} {ch : Char}
    (hh : l.cursor.here = (ch :: raw) ++ tail) (hch : ch ≠ '\n' ∧ ch ≠ '\r')
    (hraw : byteLength (ch :: raw) = (ch :: raw).length) :
    byteLength (l.cursor.here.take (ch :: raw).length) = (ch :: raw).length ∧
      l.cursor.char ≠ none ∧
      From cs (l.cursor.start + (ch :: raw).length) tail ∧
      l.cursor.here.drop (ch :: raw).length = tail ∧
      ∀ x, l.cursor.start + (ch :: raw).length ≤ x → ¬ l.HasGap x := by
  have hc := h.steady.on.char_of_here hh hch.2
  have hfrom := h.steady.on.here
  rw [hh] at hfrom
  refine ⟨?_, Cursor.char_ne_none hc, ?_, ?_, fun x hx => ?_⟩
  · rw [hh, List.take_left, hraw]
  · rw [← hraw]
    exact hfrom.append
  · rw [hh, List.drop_left]
  · exact h.steady.noGap hc hch.1 (by omega)

end Lexer
end TemplateSyntax
