import TemplateSyntax.Proofs.LexerAgree

/-! # Runs of the lexer

`Tracks` is what holds of a lexer between two steps and between two tokens that are handed out.
Each step keeps it, and so does all that may happen to the lexer from outside: taking a token,
turning interpolation on and off, changing the namespace, and choosing how the content of an
element is read right behind its start tag.  `potential` bounds the steps that are left. -/

namespace TemplateSyntax
namespace Lexer

open Text (byteLength From Between)

variable {cs : List Char} {taken : List Token} {l : Lexer}

/-! ## Moving on -/

theorem addGaps_breaches {index count : Nat} (h : index + count ≤ l.locator.index.size)
    (hb : l.breaches = []) : (l.addGaps index count).breaches = [] := by
  simp [addGaps, h, hb]

/-- Moving on changes the cursor and records the line feed that is dropped. -/
theorem moveOn_spec (l : Lexer) (hl : l.locator.index.size = byteLength cs)
    (hb : l.breaches = []) (hn : From cs l.cursor.index l.cursor.rest) :
    ∃ gaps, l.moveOn = { l with cursor := l.cursor.advance, gaps, breaches := [] } ∧
      ∀ x, l.locator.host x ∈ gaps ↔ l.HasGap x ∨ l.cursor.droppedLineFeed? = some x := by
  unfold moveOn
  dsimp only
  split
  · next index hd =>
    have hindex : index + 1 ≤ l.locator.index.size := by
      simp only [Cursor.droppedLineFeed?] at hd
      split at hd
      · next rest hr =>
        obtain rfl := Option.some.inj hd
        rw [hr] at hn
        rw [hl]
        exact hn.cons.cons.le_size
      · simp at hd
    have hno := addGaps_breaches (l := { l with cursor := l.cursor.advance }) hindex hb
    refine ⟨l.gaps ++ (List.range' index 1).map l.locator.host, ?_, fun x => ?_⟩
    · rw [← hno]
      rfl
    · refine (@hasGap_addGaps l index 1 x).trans (or_congr_right ?_)
      rw [hd, Option.some.injEq]
      omega
  · next hd => exact ⟨l.gaps, by rw [← hb], fun x => by simp [HasGap, hd]⟩

/-- On the next character its gap is on record and nothing that was relied on failed. -/
theorem advance_spec (l : Lexer) (hl : l.locator.index.size = byteLength cs)
    (hb : l.breaches = []) (hn : From cs l.cursor.index l.cursor.rest) :
    ∃ gaps diagnostics,
      l.advance = { l with cursor := l.cursor.advance, gaps, diagnostics, breaches := [] } ∧
        ∀ x, l.locator.host x ∈ gaps ↔ l.HasGap x ∨ l.cursor.droppedLineFeed? = some x := by
  obtain ⟨gaps, heq, hgaps⟩ := moveOn_spec l hl hb hn
  have hstart : l.cursor.index ≤ l.locator.index.size := by
    rw [hl]
    exact hn.le_size
  unfold advance
  dsimp only
  rw [heq]
  split
  · next cause _ =>
    refine ⟨gaps,
      l.diagnostics.push (l.locator.diagnose cause (l.locator.host l.cursor.advance.start)),
      ?_, hgaps⟩
    simp [report, reportAt, hstart]
  · exact ⟨gaps, l.diagnostics, rfl, hgaps⟩

/-- The states that the content behind a tag starts in. -/
def IsContentState (s : LexState) : Prop := s = .data ∨ IsTextState s

/-- The lexer has handed out all its tokens, and is where the content behind a tag starts or at the
end of the text. -/
structure AtContent (l : Lexer) : Prop where
  ready : l.buffer.ready = []
  place : l.finished = true ∨ (IsContentState l.state ∧ l.again = false)

theorem BehindTag.atContent (h : l.BehindTag) (hr : l.buffer.ready = []) : l.AtContent :=
  ⟨hr, .inr ⟨.inl h.state, h.again⟩⟩

/-- What holds of a lexer between two steps. -/
structure Tracks (cs : List Char) (taken : List Token) (l : Lexer) : Prop where
  size : l.locator.index.size = byteLength cs
  noBreach : l.breaches = []
  stays : l.finished = false → l.again = true →
    Steady cs l.locator l.cursor l.gaps l.breaches ∧ l.Stage cs taken true l.state
  moves : l.finished = false → l.again = false →
    From cs l.cursor.index l.cursor.rest ∧ (∀ x, l.cursor.index ≤ x → ¬ l.HasGap x) ∧
      l.Stage cs taken false l.state
  ended : l.finished = true → Rests cs l.locator l.HasGap taken l.buffer
  pending : l.finished = false → l.buffer.Pending
  closes : (∃ t ∈ l.buffer.ready, t.kind.closesTag = true) →
    l.finished = false ∧ l.BehindTag ∧ l.buffer.LastCloses (l.locator.host l.cursor.index)

/-- The tokens that were handed out are a stream. -/
theorem Tracks.stream (h : Tracks cs taken l) :
    ∃ m p, Stream cs l.locator l.HasGap taken m p := by
  suffices hs : ∃ m p, Stream cs l.locator l.HasGap (taken ++ l.buffer.ready) m p by
    obtain ⟨m, p, hs⟩ := hs
    exact hs.front
  cases hf : l.finished with
  | true => exact (h.ended hf).stream
  | false =>
    cases ha : l.again with
    | true => exact Stage.stream (h.stays hf ha).2
    | false => exact Stage.stream (h.moves hf ha).2.2

/-- The lexer as its next step takes it. -/
def entered (l : Lexer) : Lexer := if l.again then { l with again := false } else l.advance

/-- The next step takes the character in the state that the lexer is in. -/
theorem Tracks.enters (h : Tracks cs taken l) (hf : l.finished = false) :
    Enters cs taken l.entered l.entered.state ∧ l.entered.buffer = l.buffer ∧
      l.entered.state = l.state := by
  unfold entered
  split
  · next ha =>
    obtain ⟨hs, hst⟩ := h.stays hf ha
    have hagree : Agrees taken l true taken { l with again := false } true :=
      ⟨rfl, .refl _ _, rfl, fun _ _ => Iff.rfl, fun _ => ⟨rfl, rfl⟩, rfl, rfl, rfl, rfl, rfl, rfl,
        rfl⟩
    exact ⟨⟨hs, ⟨rfl, hf⟩, hagree.stage hst⟩, rfl, rfl⟩
  · next ha =>
    obtain ⟨hn, hg, hst⟩ := h.moves hf (by simpa using ha)
    obtain ⟨gaps, diagnostics, heq, hgaps⟩ := advance_spec l h.size h.noBreach hn
    have hahead : ∀ x, l.cursor.index ≤ x →
        (l.locator.host x ∈ gaps ↔ l.cursor.droppedLineFeed? = some x) := by
      intro x hx
      rw [hgaps x, or_iff_right (hg x hx)]
    have hbehind : ∀ x, x ≤ l.cursor.index → (l.locator.host x ∈ gaps ↔ l.HasGap x) := by
      intro x hx
      rw [hgaps x, or_iff_left]
      simp only [Cursor.droppedLineFeed?]
      split
      · simp only [Option.some.injEq]
        omega
      · simp
    have hagree : Agrees taken l false taken
        { l with cursor := l.cursor.advance, gaps, diagnostics, breaches := [] } true :=
      ⟨rfl, .refl _ _, Cursor.advance_start _, hbehind, by simp, rfl, rfl, rfl, rfl, rfl, rfl, rfl⟩
    rw [heq]
    refine ⟨⟨⟨h.size, .advance hn, fun x hx => ?_, rfl⟩, ⟨by simpa using ha, hf⟩, ?_⟩, rfl, rfl⟩
    · show l.locator.host x ∈ gaps ↔ l.cursor.advance.dropped? = some x
      rw [Cursor.dropped?_advance]
      exact hahead x (by simpa using hx)
    · exact hagree.stage hst

/-- The tokens that are left when the text is at its end are finished. -/
theorem finish_tracks (h : Sound cs taken l) (ho : l.buffer.Open) (ha : l.again = false)
    (hc : l.cursor.char = none) : Tracks cs taken l.finish where
  size := h.size
  noBreach := h.noBreach
  stays hf := by simp [finish] at hf
  moves hf := by simp [finish] at hf
  ended _ := h.ended ha hc
  pending hf := by simp [finish] at hf
  closes := by
    have hopen := TokenBuffer.commitCurrent_open (l := l.locator) (j := l.cursor.index)
      (TokenBuffer.commitHeldBack_open (l := l.locator) (j := l.cursor.index) ho)
    rintro ⟨t, ht, hclose⟩
    rw [hopen.ready t ht] at hclose
    exact absurd hclose (by decide)

/-- What a step leaves when it does not take the end of the text. -/
theorem Tracks.ofSound {l' : Lexer} (h : Sound cs taken l') (hm : Moves l l')
    (ho : l.buffer.Open) (hc : l'.again = false → l'.cursor.char ≠ none) :
    Tracks cs taken l' where
  size := h.size
  noBreach := h.noBreach
  stays _ ha := h.stays ha
  moves _ ha := h.moves ha (hc ha)
  ended hf := by simp [h.running] at hf
  pending _ := hm.pending ho
  closes := by
    rintro ⟨t, ht, hclose⟩
    rcases hm.closes ho with ho' | hd
    · rw [ho'.ready t ht] at hclose
      exact absurd hclose (by decide)
    · exact ⟨h.running, hd⟩

/-- Nothing depends on the namespace, on whether double braces count and on the log. -/
theorem Tracks.outside (h : Tracks cs taken l) (ns : Namespace) (interpolating : Bool)
    (log : Array LogEntry) : Tracks cs taken { l with ns, interpolating, log } := by
  have hagree : ∀ here, Agrees taken l here taken { l with ns, interpolating, log } here :=
    fun _ => ⟨rfl, .refl _ _, rfl, fun _ _ => Iff.rfl, fun hh => ⟨hh, rfl⟩, rfl, rfl, rfl, rfl, rfl,
      rfl, rfl⟩
  refine { h with
    stays := fun hf ha => ?_
    moves := fun hf ha => ?_
    closes := fun hready => ?_ }
  · obtain ⟨hs, hst⟩ := h.stays hf ha
    exact ⟨hs, (hagree true).stage hst⟩
  · obtain ⟨hn, hg, hst⟩ := h.moves hf ha
    exact ⟨hn, hg, (hagree false).stage hst⟩
  · obtain ⟨hf, hb, hlast⟩ := h.closes hready
    exact ⟨hf, { hb with }, hlast⟩

theorem advanceStep_eq (l : Lexer) : l.advanceStep =
    { (if l.entered.step.cursor.char.isNone && !l.entered.step.again then l.entered.step.finish
      else l.entered.step) with log := (l.entered.traceTo l.entered.step.state).log } := by
  unfold advanceStep
  dsimp only
  rw [← entered]
  split <;> rfl

/-- A step keeps track of the text. -/
theorem Tracks.advanceStep (h : Tracks cs taken l) (hf : l.finished = false)
    (hr : l.buffer.ready = []) : Tracks cs taken l.advanceStep := by
  obtain ⟨he, hbuf, -⟩ := h.enters hf
  have hs := step_sound he
  have hm := step_moves he
  have ho : l.entered.buffer.Open := by
    rw [hbuf]
    exact { h.pending hf with ready := by simp [hr] }
  rw [advanceStep_eq]
  split
  · next hc =>
    simp only [Bool.and_eq_true, Option.isNone_iff_eq_none, Bool.not_eq_true'] at hc
    -- a tag is not closed by the end of the text
    have hopen := (hm.closes ho).resolve_right fun hd => by simp [hd.1.char] at hc
    exact (finish_tracks hs hopen hc.2 hc.1).outside _ _ _
  · next hc =>
    simp only [Bool.and_eq_true, Option.isNone_iff_eq_none, Bool.not_eq_true', not_and] at hc
    exact (Tracks.ofSound hs hm ho fun ha hn => hc hn ha).outside _ _ _

/-! ## Steps that are left -/

/-- A bound for the steps that are left.  Each character, and the end of the text, takes four at
most. -/
def potential (l : Lexer) : Nat :=
  if l.finished then 0
  else if l.again then
    (if l.cursor.char.isNone then 0 else 4 * (l.cursor.rest.length + 1)) + (l.rank + 1)
  else 4 * (l.cursor.rest.length + 1)

theorem potential_le (l : Lexer) : l.potential ≤ l.stepsLeft := by
  have hr := LexState.rank_le_three l.returnState l.cursor.char l.state
  have hr' : l.rank ≤ 3 := hr
  unfold potential stepsLeft
  repeat' split
  all_goals omega

/-- The potential behind a step that goes on with the character, or takes it. -/
theorem potential_step {l' : Lexer} (hm : Moves l l') (hf : l'.finished = false) :
    (l'.again = true → l'.potential + 1 ≤
      (if l.cursor.char.isNone then 0 else 4 * (l.cursor.rest.length + 1)) + (l.rank + 1)) ∧
      (l'.again = false → l'.potential ≤ 4 * (l.cursor.rest.length + 1)) := by
  refine ⟨fun ha => ?_, fun ha => ?_⟩
  · obtain ⟨hc, hr⟩ := hm.repeats ha
    simp only [potential, hf, ha, hc, Bool.false_eq_true, if_false, if_true]
    omega
  · obtain ⟨-, hr⟩ := hm.takes ha
    simp only [potential, hf, ha, Bool.false_eq_true, if_false]
    omega

theorem advance_cursor (l : Lexer) : l.advance.cursor = l.cursor.advance := by
  unfold advance moveOn
  dsimp only
  split <;> split <;> rfl

/-- What is left when the lexer takes up a character: four steps for each one behind it, and those
that it may go on with this one. -/
theorem entered_potential (hf : l.finished = false) :
    (if l.entered.cursor.char.isNone then 0 else 4 * (l.entered.cursor.rest.length + 1)) +
        (l.entered.rank + 1) ≤ l.potential := by
  have hrank := LexState.rank_le_three l.entered.returnState l.entered.cursor.char l.entered.state
  rw [← rank] at hrank
  by_cases ha : l.again = true
  · have he : l.entered = { l with again := false } := if_pos ha
    rw [he, potential, hf, ha]
    exact Nat.le_refl _
  · have he : l.entered = l.advance := if_neg ha
    have hcursor : l.entered.cursor = l.cursor.advance := by rw [he, advance_cursor]
    have hp : l.potential = 4 * (l.cursor.rest.length + 1) := by simp [potential, hf, ha]
    rw [hp, hcursor]
    split
    · omega
    · next hc =>
      have hlt := Cursor.length_rest_advance_lt (c := l.cursor)
        (by simpa [Option.isSome_iff_ne_none] using hc)
      omega

theorem Tracks.advanceStep_potential (h : Tracks cs taken l) (hf : l.finished = false) :
    l.advanceStep.potential < l.potential ∧
      l.advanceStep.buffer.count ≤ l.buffer.count + 2 := by
  obtain ⟨he, hbuf, -⟩ := h.enters hf
  have hm := step_moves he
  have hs := step_sound he
  obtain ⟨hagain, htakes⟩ := potential_step hm hs.running
  have hpot := entered_potential hf
  have hcount := hm.count
  rw [hbuf] at hcount
  rw [advanceStep_eq]
  split
  · refine ⟨?_, ?_⟩
    · have hfin : l.entered.step.finish.potential = 0 := rfl
      exact Nat.lt_of_lt_of_le (hfin ▸ Nat.succ_pos _) hpot
    · have hfin : l.entered.step.finish.buffer.count = l.entered.step.buffer.count := by
        simp only [finish, TokenBuffer.count_commitCurrent, TokenBuffer.count_commitHeldBack]
      exact hfin ▸ hcount
  · next hc =>
    refine ⟨?_, hcount⟩
    show l.entered.step.potential < l.potential
    cases ha : l.entered.step.again with
    | true => exact Nat.lt_of_lt_of_le (hagain ha) hpot
    | false =>
      -- the character was taken, so that there was one
      have hsome : ¬ l.entered.cursor.char.isNone = true := by
        rw [← (hm.takes ha).1]
        simpa [ha] using hc
      have hle := htakes ha
      rw [if_neg hsome] at hpot
      omega

/-! ## Tokens that are handed out -/

/-- The lexer when the first token that is ready is handed out. -/
theorem Tracks.take (h : Tracks cs taken l) {t : Token} {ready : List Token}
    (hr : l.buffer.ready = t :: ready) :
    Tracks cs (taken ++ [t]) { l with buffer := { l.buffer with ready } } := by
  have htokens : SameTokens taken l.buffer (taken ++ [t]) { l.buffer with ready } :=
    ⟨rfl, rfl, rfl, by simp [hr]⟩
  have hagree : ∀ here, Agrees taken l here (taken ++ [t])
      { l with buffer := { l.buffer with ready } } here :=
    fun _ => ⟨rfl, htokens, rfl, fun _ _ => Iff.rfl, fun hh => ⟨hh, rfl⟩, rfl, rfl, rfl, rfl, rfl,
      rfl, rfl⟩
  refine { h with
    stays := fun hf ha => ?_
    moves := fun hf ha => ?_
    ended := fun hf => htokens.rests (h.ended hf)
    pending := fun hf => ⟨(h.pending hf).current, (h.pending hf).heldBack⟩
    closes := fun ⟨t', ht, hc⟩ => ?_ }
  · obtain ⟨hs, hst⟩ := h.stays hf ha
    exact ⟨hs, (hagree true).stage hst⟩
  · obtain ⟨hn, hg, hst⟩ := h.moves hf ha
    exact ⟨hn, hg, (hagree false).stage hst⟩
  · obtain ⟨hf, hb, hlast⟩ := h.closes ⟨t', hr ▸ List.mem_cons_of_mem t ht, hc⟩
    exact ⟨hf, { hb with }, (hlast.back hr).2 ⟨t', ht, hc⟩⟩

/-- A bound for the tokens that are left to hand out. -/
def tokensLeft (l : Lexer) : Nat := 3 * l.potential + l.buffer.count

/-- What comes of a run: a token, with the lexer right behind the tag if the token closes one, or the
end of the text. -/
inductive Handed (cs : List Char) (taken : List Token) (l : Lexer) : Option Token × Lexer → Prop
  | token {t : Token} {l' : Lexer} (h : Tracks cs (taken ++ [t]) l')
      (hlt : l'.tokensLeft < l.tokensLeft)
      (hc : t.kind.closesTag = true →
        l'.buffer.ready = [] ∧ l'.finished = false ∧ l'.BehindTag) :
    Handed cs taken l (some t, l')
  | ended {l' : Lexer} (h : Tracks cs taken l') (hf : l'.finished = true)
      (hr : l'.buffer.ready = []) : Handed cs taken l (none, l')

theorem potential_pos (hf : l.finished = false) : 0 < l.potential := by
  unfold potential
  rw [hf]
  split
  · contradiction
  · split <;> omega

/-- Handing out the first token that is ready. -/
theorem Tracks.handOut (h : Tracks cs taken l) {t : Token} {ready : List Token}
    (hr : l.buffer.ready = t :: ready) :
    Handed cs taken l (some t, { l with buffer := { l.buffer with ready } }) := by
  refine .token (h.take hr) ?_ fun hc => ?_
  rotate_left
  · obtain ⟨hf, hb, hlast⟩ := h.closes ⟨t, hr ▸ List.mem_cons_self .., hc⟩
    exact ⟨((hlast.back hr).1 hc).1, hf, { hb with }⟩
  have hcount : l.buffer.count = ({ l.buffer with ready } : TokenBuffer).count + 1 := by
    simp only [TokenBuffer.count, hr, List.length_cons]
    omega
  show 3 * l.potential + ({ l.buffer with ready } : TokenBuffer).count < l.tokensLeft
  rw [tokensLeft, hcount]
  exact Nat.lt_succ_self _

/-- Steps are taken until a token is ready, and there are enough. -/
theorem Tracks.run {fuel : Nat} (h : Tracks cs taken l) (hle : l.potential ≤ fuel) :
    Handed cs taken l (l.run fuel) := by
  induction fuel generalizing l with
  | zero =>
    unfold Lexer.run
    split
    · next t ready hr => exact h.handOut hr
    · next hr =>
      split
      · next hf => exact .ended h hf hr
      · next hf =>
        have := potential_pos (l := l) (by simpa using hf)
        omega
  | succ fuel ih =>
    unfold Lexer.run
    split
    · next t ready hr => exact h.handOut hr
    · next hr =>
      split
      · next hf => exact .ended h hf hr
      · next hf =>
        have hf' : l.finished = false := by simpa using hf
        obtain ⟨hpot, hcount⟩ := h.advanceStep_potential hf'
        have hrun := ih (h.advanceStep hf' hr) (by omega)
        show Handed cs taken l (l.advanceStep.run fuel)
        generalize l.advanceStep.run fuel = handed at hrun
        cases hrun with
        | token h' hlt hc =>
          refine .token h' (Nat.lt_trans hlt ?_) hc
          simp only [tokensLeft]
          omega
        | ended h' hfin hr' => exact .ended h' hfin hr'

/-- What a lexer is told from outside: where its text stands, and how to read on in it. -/
def told (l : Lexer) : Locator × Namespace × Bool := (l.locator, l.ns, l.interpolating)

theorem flushDecoded_told (l : Lexer) (decoded : String) (stop : Nat) :
    (l.flushDecoded decoded stop).told = l.told := by
  unfold flushDecoded
  dsimp only
  split <;> rfl

theorem onNamedCharacterReference_told (l : Lexer) :
    l.onNamedCharacterReference.told = l.told := by
  unfold onNamedCharacterReference
  split
  · rfl
  · dsimp only [goto, skip]
    repeat' split
    all_goals first | rfl | exact flushDecoded_told ..

theorem onNumericReferenceDigits_told (l : Lexer) (isDigit : Char → Bool) (radix : Nat)
    (s : LexState) (c : Option Char) :
    (l.onNumericReferenceDigits isDigit radix s c).told = l.told := by
  have hfinish : ∀ (l : Lexer) stop, (l.finishNumericReference stop).told = l.told := by
    intro l stop
    unfold finishNumericReference
    dsimp only
    rw [flushDecoded_told]
    split <;> rfl
  have hgoto : ∀ (l : Lexer) s, (l.goto s).told = l.told := fun _ _ => rfl
  have hreconsume : ∀ (l : Lexer) s, (l.reconsume s).told = l.told := fun _ _ => rfl
  have hreport : ∀ (l : Lexer) cause, (l.report cause).told = l.told := fun _ _ => rfl
  unfold onNumericReferenceDigits
  repeat' split
  · rfl
  · rw [hgoto, hfinish]
  · rw [hreconsume, hfinish, hreport]
  · rw [hreconsume, hfinish, hreport]

/-- No step changes what the lexer is told. -/
theorem step_told (l : Lexer) : l.step.told = l.told := by
  unfold step
  dsimp only
  split
  case h_38 => exact l.onNamedCharacterReference_told
  case h_43 | h_44 => exact l.onNumericReferenceDigits_told ..
  all_goals
    simp only [onData, onRcdata, onRawText, onTagOpen, onEndTagOpen, onTagName, onTextLessThanSign,
      onTextEndTagOpen, onTextEndTagName, onBeforeAttributeName, onAttributeName,
      onAfterAttributeName, onBeforeAttributeValue, onAttributeValueQuoted,
      onAttributeValueUnquoted, onAfterAttributeValueQuoted, onSelfClosingStartTag,
      onBogusComment, onMarkupDeclarationOpen, onCommentStart, onCommentStartDash, onComment,
      onCommentLessThanSign, onCommentLessThanSignBang, onCommentLessThanSignBangDash,
      onCommentLessThanSignBangDashDash, onCommentEndDash, onCommentEnd, onCommentEndBang,
      onCdataSection, onCdataSectionBracket, onCdataSectionEnd, onCharacterReference,
      onAmbiguousAmpersand, onNumericCharacterReference, onNumericReferenceStart,
      onInterpolationStart, onInterpolationData, onInterpolationEnd]
    repeat' split
  all_goals rfl

theorem advanceStep_told (l : Lexer) : l.advanceStep.told = l.told := by
  have hentered : l.entered.told = l.told := by
    unfold entered advance moveOn
    dsimp only
    repeat' split
    all_goals rfl
  rw [advanceStep_eq]
  split
  · exact (step_told _).trans hentered
  · exact (step_told _).trans hentered

theorem run_told (fuel : Nat) (l : Lexer) : (l.run fuel).2.told = l.told := by
  induction fuel generalizing l with
  | zero =>
    unfold Lexer.run
    split
    · rfl
    · split <;> rfl
  | succ fuel ih =>
    unfold Lexer.run
    split
    · rfl
    · split
      · rfl
      · exact (ih l.advanceStep).trans l.advanceStep_told

theorem pull_told (l : Lexer) : l.pull.2.told = l.told := run_told _ l

theorem pull_locator (l : Lexer) : l.pull.2.locator = l.locator := congrArg Prod.fst l.pull_told

/-- A pull hands out a token, or the text is at its end. -/
theorem Tracks.pull (h : Tracks cs taken l) : Handed cs taken l l.pull :=
  h.run l.potential_le

theorem enter_eq (l : Lexer) (s : LexState) :
    l.enter s = { l with log := (l.traceTo s).log, state := s } := by
  unfold enter traceTo
  split <;> rfl

theorem AtContent.enter (h : l.AtContent) {s : LexState} (hs : IsTextState s) :
    (l.enter s).AtContent := by
  rw [enter_eq]
  exact ⟨h.ready, h.place.imp id fun hd => ⟨.inr hs, hd.2⟩⟩

/-- Content can be read in another way from where it starts. -/
theorem Tracks.enter (h : Tracks cs taken l) {s : LexState} (hs : IsTextState s)
    (hc : l.AtContent) : Tracks cs taken (l.enter s) := by
  rw [enter_eq]
  have hagree : Agrees taken l false taken { l with log := (l.traceTo s).log, state := s } false :=
    ⟨rfl, .refl _ _, rfl, fun _ _ => Iff.rfl, fun hh => ⟨hh, rfl⟩, rfl, rfl, rfl, rfl, rfl, rfl, rfl⟩
  refine { h with
    stays := fun hf ha => ?_
    moves := fun hf ha => ?_
    closes := fun ⟨t, ht, _⟩ => absurd (hc.ready ▸ ht) List.not_mem_nil }
  · rcases hc.place with hc | hc
    · exact absurd (hc.symm.trans hf) (by decide)
    · exact absurd (hc.2.symm.trans ha) (by decide)
  · obtain ⟨hn, hg, hst⟩ := h.moves hf ha
    refine ⟨hn, hg, hagree.stage (stage_text hs ?_)⟩
    rcases hc.place with hc | ⟨hd | hd | hd, -⟩
    · exact absurd (hc.symm.trans hf) (by decide)
    all_goals rw [hd] at hst
    · exact hst.resolve_right (by simp)
    · exact hst.resolve_right (by simp)
    · exact hst

/-- The lexer in front of a text. -/
theorem tracks_start (cs : List Char) (origin : Origin) (tracing : Bool) :
    Tracks cs [] (Lexer.ofChars cs (Locator.ofChars cs origin) tracing) where
  size := rfl
  noBreach := rfl
  stays _ ha := by simp [Lexer.ofChars] at ha
  moves _ _ := by
    refine ⟨.start cs, fun x _ => by simp [HasGap, Lexer.ofChars], .inl ?_⟩
    exact {
      noBreach := rfl
      notHeld := rfl
      outside := by decide
      idle := fun _ => ⟨0, Nat.le_refl 0, .nil⟩
      busy := by simp [Lexer.ofChars] }
  ended hf := by simp [Lexer.ofChars] at hf
  pending _ := ⟨by simp [Lexer.ofChars], by simp [Lexer.ofChars]⟩
  closes := by simp [Lexer.ofChars]

end Lexer
end TemplateSyntax
