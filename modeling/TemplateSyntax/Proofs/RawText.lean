import TemplateSyntax.Proofs.Lexing
import TemplateSyntax.Proofs.PrintedTokens
import TemplateSyntax.Proofs.RawTextRule

/-! # Raw text is read up to its own end tag

The lexer reads raw text character by character, and holds it back when `</` may start the end tag: the
letters behind it are collected, and either the end tag is started or everything so far is text again.
Each of these turns takes a piece of the text in which no end tag starts, so that the rule for the end of
raw text follows by induction on the text in front. -/

namespace TemplateSyntax

open CharClass (isBlank)
open Text (byteLength Gives unifyBreaks sameLetters)

/-! ## Tokens of raw text -/

/-- The kinds of tokens that raw text is made of. -/
def TokenKind.isRawText : TokenKind → Bool
  | .rawText | .whitespace => true
  | _ => false

/-- Tokens of raw text that follow each other from one index to another, and the text that they have as
their values. -/
inductive RawTokens (loc : Locator) (i : Nat) : Nat → List Token → List Char → Prop
  | nothing : RawTokens loc i i [] []
  | token {j k : Nat} {ts : List Token} {v w : List Char} {kind : TokenKind}
      (h : RawTokens loc i j ts v) (hk : kind.isRawText = true) (hlt : j < k) :
    RawTokens loc i k (ts ++ [loc.token ⟨kind, j, String.ofList w⟩ k]) (v ++ w)

/-- Tokens of raw text up to an index, the last of which may still be built. -/
inductive RawSoFar (loc : Locator) (i j : Nat) (ts : List Token) :
    Option PendingToken → List Char → Prop
  | nothing {v : List Char} (h : RawTokens loc i j ts v) : RawSoFar loc i j ts none v
  | pending {k : Nat} {v w : List Char} {kind : TokenKind} (h : RawTokens loc i k ts v)
      (hk : kind.isRawText = true) (hlt : k < j) :
    RawSoFar loc i j ts (some ⟨kind, k, String.ofList w⟩) (v ++ w)

variable {loc : Locator} {name : String} {i j k : Nat} {ts us : List Token} {v w r rest : List Char}
  {kind : TokenKind} {c : Char} {p : Option PendingToken}

theorem RawTokens.isRawText (h : RawTokens loc i j ts v) : ∀ t ∈ ts, t.kind.isRawText = true := by
  induction h with
  | nothing => simp
  | token _ hk _ ih =>
    intro t ht
    rcases List.mem_append.1 ht with ht | ht
    · exact ih t ht
    · obtain rfl := List.mem_singleton.1 ht
      exact hk

theorem TokenKind.closesTag_of_isRawText (h : kind.isRawText = true) : kind.closesTag = false := by
  cases kind <;> first | rfl | cases h

namespace RawSoFar

/-- The token that is being built ends. -/
theorem commit (h : RawSoFar loc i j ts p v) : RawTokens loc i j (ts ++ loc.pending p j) v := by
  cases h with
  | nothing h => exact (List.append_nil ts).symm ▸ h
  | pending h hk hlt => exact h.token hk hlt

theorem ready (h : RawSoFar loc i j ts p v) : ∀ t ∈ ts, t.kind.isRawText = true := by
  cases h with
  | nothing h | pending h => exact h.isRawText

/-- Text is appended. -/
theorem append {B : TokenBuffer} (h : RawSoFar loc i j (ts ++ B.ready) B.current v)
    (hk : kind.isRawText = true) (hlt : j < k) (w : List Char) :
    RawSoFar loc i k (ts ++ (B.append loc kind (String.ofList w) j).ready)
      (B.append loc kind (String.ofList w) j).current (v ++ w) := by
  unfold TokenBuffer.append TokenBuffer.continueAs
  split
  · next hsame =>
    generalize hp : B.current = p at h hsame
    cases h with
    | nothing => cases hsame
    | pending h hk' hlt' =>
      rw [TokenBuffer.push_of_current _ _ hp, ← String.ofList_append, List.append_assoc]
      exact .pending h hk' (Nat.lt_trans hlt' hlt)
  · have hcommit := h.commit
    rw [List.append_assoc, ← TokenBuffer.ready_startAt B loc kind j] at hcommit
    have hpush : ("" : String) ++ String.ofList w = String.ofList w := String.empty_append
    rw [TokenBuffer.push_of_current _ _ (t := ⟨kind, j, ""⟩) rfl, hpush]
    exact .pending hcommit hk hlt

end RawSoFar

namespace TokenBuffer

variable {B : TokenBuffer}

theorem heldBack_append (s : String) : (B.append loc kind s j).heldBack = B.heldBack := by
  unfold append continueAs
  split
  · rfl
  · exact B.heldBack_startAt loc kind j

/-- A token that starts no tag leaves the name of the last start tag alone. -/
theorem lastStartTagName_startAt (k : TokenKind) (h : ∀ t ∈ B.current, t.kind ≠ .tagOpen) :
    (B.startAt loc k j).lastStartTagName = B.lastStartTagName := by
  unfold startAt commitCurrent
  dsimp only
  split
  · next t ht => exact if_neg (h t ht)
  · rfl

theorem lastStartTagName_append (h : ∀ t ∈ B.current, t.kind ≠ .tagOpen) (s : String) :
    (B.append loc kind s j).lastStartTagName = B.lastStartTagName := by
  unfold append continueAs
  split
  · rfl
  · exact lastStartTagName_startAt kind h

theorem ready_commitHeldBack :
    (B.commitHeldBack loc j).ready = B.ready ++ loc.pending B.heldBack j := by
  unfold commitHeldBack
  split
  · next t ht => rw [ht]; rfl
  · next ht => rw [ht]; exact (List.append_nil _).symm

theorem heldBack_commitHeldBack : (B.commitHeldBack loc j).heldBack = none := by
  unfold commitHeldBack
  split
  · rfl
  · assumption

theorem current_commitHeldBack : (B.commitHeldBack loc j).current = B.current := by
  unfold commitHeldBack
  split <;> rfl

end TokenBuffer

theorem RawSoFar.startsNoTag (h : RawSoFar loc i j ts p v) : ∀ t ∈ p, t.kind ≠ .tagOpen := by
  intro t ht
  cases h with
  | nothing => cases ht
  | pending h hk =>
    obtain rfl := Option.some.inj ht
    rintro rfl
    cases hk

/-! ## The steps in raw text -/

namespace Lexer

open TemplateSyntax.Lexer.Place

variable {p q : Place} {l l' e x : Lexer} {s s' : LexState} {cs : List Char} {taken : List Token}

/-- A lexer in raw text that started at an index, in an element of a name: its tokens so far, of which
`ts` were handed out, have `v` as their text. -/
structure Place.InRawText (loc : Locator) (name : String) (i j : Nat) (ts : List Token) (v : List Char)
    (p : Place) : Prop where
  locator : p.locator = loc
  state : p.state = .rawText
  running : p.finished = false
  notHeld : p.buffer.heldBack = none
  named : p.buffer.lastStartTagName = name
  soFar : RawSoFar loc i j (ts ++ p.buffer.ready) p.buffer.current v

/-- A lexer behind `</` and some letters in raw text, all of which is held back. -/
structure Place.InEndTag (loc : Locator) (name : String) (i j : Nat) (ts : List Token) (v w : List Char)
    (s : LexState) (p : Place) : Prop where
  locator : p.locator = loc
  state : p.state = s
  running : p.finished = false
  ready : p.buffer.ready = []
  token : p.buffer.current = none
  named : p.buffer.lastStartTagName = name
  mark : p.mark = j
  endTagName : p.endTagName = String.ofList w
  held : RawSoFar loc i j ts p.buffer.heldBack v

/-- Text is appended in raw text. -/
theorem Place.InRawText.append (h : p.InRawText loc name i j ts v) (kind : TokenKind)
    (hk : kind.isRawText = true)
    (hlt : j < k) (w : List Char) (hloc : q.locator = p.locator) (hstate : q.state = .rawText)
    (hfinished : q.finished = p.finished)
    (hbuffer : q.buffer = p.buffer.append loc kind (String.ofList w) j) :
    q.InRawText loc name i k ts (v ++ w) where
  locator := hloc.trans h.locator
  state := hstate
  running := hfinished.trans h.running
  notHeld := by rw [hbuffer, TokenBuffer.heldBack_append, h.notHeld]
  named := by rw [hbuffer, TokenBuffer.lastStartTagName_append h.soFar.startsNoTag, h.named]
  soFar := hbuffer ▸ h.soFar.append hk hlt w

/-- Another character than `<` is text. -/
theorem Place.InRawText.char (h : l.place.InRawText loc name i j ts v) (hf : l.Faces j r)
    (hg : Gives r c rest) (hc : c ≠ '<') :
    ∃ k, l.advanceStep.place.InRawText loc name i k ts (v ++ [c]) ∧ l.advanceStep.Faces k rest ∧
      k + byteLength rest = j + byteLength r := by
  obtain ⟨hhand, hsame⟩ := hf.entered
  have hstate : l.entered.state = .rawText := (congrArg Place.state hsame).trans h.state
  have hstep : l.entered.step = (l.entered.appendData .rawText c).goto .rawText := by
    simp only [step, hstate, (hhand.char_of_gives hg).1]
    unfold onRawText
    split
    · next heq => cases heq
    · next heq => exact absurd (Option.some.inj heq) hc
    · next heq => rw [Option.some.inj heq]
  obtain ⟨hfaces, hplace, hindex⟩ := hf.advance_take hg hstep rfl rfl
  refine ⟨_, ?_, hfaces, hindex⟩
  refine h.append (if isBlank c then .whitespace else .rawText) ?_ ?_ [c] ?_ ?_ ?_ ?_
  · split <;> rfl
  · have hlt := hg.byteLength_lt
    omega
  · rw [hplace, ← hsame]
    rfl
  · rw [hplace]
    rfl
  · rw [hplace, ← hsame]
    rfl
  · rw [hplace, ← hsame, ← h.locator, ← hsame, ← hhand.start]
    rfl

/-- A `<` may start an end tag. -/
theorem Place.InRawText.less (h : l.place.InRawText loc name i j ts v)
    (hf : l.Faces j ('<' :: r)) :
    l.advanceStep.place = { l.place with mark := j, state := .rawTextLessThanSign } ∧
      l.advanceStep.Faces (j + 1) r := by
  obtain ⟨hhand, hsame⟩ := hf.entered
  have hstate : l.entered.state = .rawText := (congrArg Place.state hsame).trans h.state
  have hstep : l.entered.step = { l.entered with mark := j, state := .rawTextLessThanSign } := by
    simp only [step, hstate, (hhand.cons (by decide)).1, onRawText, ← hhand.start]
    rfl
  exact (advance_goto hf (by decide) hstep).symm

/-- Behind `<` comes no `/`: it was text. -/
theorem Place.InRawText.behindLess (h : p.InRawText loc name i j ts v)
    (hp : l.place = { p with mark := j, state := .rawTextLessThanSign }) (hf : l.Faces (j + 1) r)
    (hr : r.head? ≠ some '/') :
    l.advanceStep.place.InRawText loc name i (j + 1) ts (v ++ ['<']) ∧ l.advanceStep.Faces (j + 1) r := by
  obtain ⟨hhand, hsame⟩ := hf.entered
  rw [hp] at hsame
  have hstate : l.entered.state = .rawTextLessThanSign := congrArg Place.state hsame
  have hmark : l.entered.mark = j := congrArg Place.mark hsame
  have hloc : l.entered.locator = p.locator := congrArg Place.locator hsame
  have hbuffer : l.entered.buffer = p.buffer := congrArg Place.buffer hsame
  have hfinished : l.entered.finished = p.finished := congrArg Place.finished hsame
  have hstep : l.entered.step = (l.entered.append .rawText "<" j).reconsume .rawText := by
    simp only [step, hstate]
    unfold onTextLessThanSign
    split
    · next hat =>
      rw [(hhand.gives hat).eq_cons (by decide)] at hr
      exact absurd rfl hr
    · rw [hmark]
      rfl
  obtain ⟨hfaces, hplace⟩ := hf.advance_keep hstep rfl rfl
  refine ⟨h.append .rawText rfl (Nat.lt_succ_self j) ['<'] ?_ ?_ ?_ ?_, hfaces⟩
  · exact (congrArg Place.locator hplace).trans hloc
  · rw [hplace]
    rfl
  · exact (congrArg Place.finished hplace).trans hfinished
  · rw [hplace, ← h.locator, ← hbuffer, ← hloc]
    rfl

/-- Behind `</` the text so far is held back. -/
theorem Place.InRawText.holdBack (h : p.InRawText loc name i j ts v) (hready : p.buffer.ready = [])
    (hp : l.place = { p with mark := j, state := .rawTextLessThanSign })
    (hf : l.Faces (j + 1) ('/' :: r)) :
    l.advanceStep.place.InEndTag loc name i j ts v [] .rawTextEndTagOpen ∧
      l.advanceStep.Faces (j + 2) r := by
  obtain ⟨hhand, hsame⟩ := hf.entered
  rw [hp] at hsame
  have hstate : l.entered.state = .rawTextLessThanSign := congrArg Place.state hsame
  obtain ⟨hchar, hrest, hindex⟩ := hhand.cons (by decide)
  have hstep : l.entered.step = l.entered.holdBack.goto .rawTextEndTagOpen := by
    simp only [step, hstate, hchar]
    rfl
  obtain ⟨hfaces, hplace, -⟩ := hf.advance_take (.char r (by decide)) hstep rfl rfl
  have hbuffer : l.entered.buffer = p.buffer := congrArg Place.buffer hsame
  have hsoFar := h.soFar
  rw [hready, List.append_nil] at hsoFar
  rw [hplace]
  refine ⟨?_, hindex ▸ hfaces⟩
  exact {
    locator := (congrArg Place.locator hsame).trans h.locator
    state := rfl
    running := (congrArg Place.finished hsame).trans h.running
    ready := (congrArg TokenBuffer.ready hbuffer).trans hready
    token := rfl
    named := (congrArg TokenBuffer.lastStartTagName hbuffer).trans h.named
    mark := congrArg Place.mark hsame
    endTagName := rfl
    held := by
      rw [← hbuffer] at hsoFar
      exact hsoFar }

/-! ## Behind `</` in raw text -/

theorem onTextEndTagName_letter (hc : c.isAlpha = true) : e.onTextEndTagName .rawText (some c) =
    { e with endTagName := e.endTagName.push c }.goto .rawTextEndTagName := by
  have hends : endsTagName c = false := by
    by_contra h
    rw [isAlpha_of_endsTagName (eq_true_of_ne_false h)] at hc
    cases hc
  simp only [endsTagName, Bool.or_eq_false_iff] at hends
  simp only [onTextEndTagName, hends, hc]
  rfl

theorem onTextEndTagName_restores (hc : c.isAlpha = false)
    (hno : endsTagName c = false ∨ e.isAppropriateEndTag = false) :
    e.onTextEndTagName .rawText (some c) = (e.restoreHeldBack .rawText).reconsume .rawText := by
  simp only [onTextEndTagName, hc]
  rcases hno with hno | hno
  · simp only [endsTagName, Bool.or_eq_false_iff] at hno
    simp [hno]
  · simp [hno]

/-- The character behind the name of the end tag that raw text ends with. -/
inductive Promotes (e : Lexer) : Lexer → Prop
  | blank (c : Char) : Promotes e ((e.promoteHeldBack.startBlank c).goto .beforeAttributeName)
  | solidus : Promotes e (e.promoteHeldBack.markHere.goto .selfClosingStartTag)
  | close : Promotes e ((e.promoteHeldBack.oneCharToken .tagClose).goto .data)

theorem onTextEndTagName_promotes (hc : endsTagName c = true) (ha : e.isAppropriateEndTag = true) :
    e.Promotes (e.onTextEndTagName .rawText (some c)) := by
  simp only [onTextEndTagName, ha, Bool.and_true]
  split
  · exact .blank c
  · next hblank =>
    split
    · exact .solidus
    · next hsolidus =>
      have hclose : (c == '>') = true := by simpa [endsTagName, hblank, hsolidus] using hc
      rw [if_pos hclose]
      exact .close

theorem promoteHeldBack_buffer (e : Lexer) (hready : e.buffer.ready = [])
    (htoken : e.buffer.current = none) :
    e.promoteHeldBack.buffer.ready = e.locator.pending e.buffer.heldBack e.mark ∧
      e.promoteHeldBack.buffer.current = some ⟨.endTagOpen, e.mark, e.endTagName⟩ ∧
        e.promoteHeldBack.buffer.heldBack = none := by
  generalize hB : e.buffer.commitHeldBack e.locator e.mark = B
  have hpush : e.promoteHeldBack.buffer =
      (B.startAt e.locator .endTagOpen e.mark).push e.endTagName := by
    rw [← hB]
    rfl
  have hcurrent : B.current = none := by
    rw [← hB, TokenBuffer.current_commitHeldBack, htoken]
  rw [hpush]
  refine ⟨?_, ?_, ?_⟩
  · show (B.startAt e.locator .endTagOpen e.mark).ready = _
    rw [TokenBuffer.ready_startAt, hcurrent, ← hB, TokenBuffer.ready_commitHeldBack, hready]
    exact List.append_nil _
  · rw [TokenBuffer.push_of_current _ _ (t := ⟨.endTagOpen, e.mark, ""⟩) rfl]
    exact congrArg (fun value => some (PendingToken.mk .endTagOpen e.mark value)) String.empty_append
  · show (B.startAt e.locator .endTagOpen e.mark).heldBack = _
    rw [TokenBuffer.heldBack_startAt, ← hB, TokenBuffer.heldBack_commitHeldBack]

/-- The states in a tag behind a `/` or a blank. -/
def betweenAttributes : LexState → Bool
  | .selfClosingStartTag | .beforeAttributeName | .afterAttributeName => true
  | _ => false

/-- The end tag that a word started at an index is the next to be handed out, behind some tokens. -/
inductive Place.AtEndTag (loc : Locator) (j : Nat) (w : List Char) (us : List Token) (p : Place) : Prop
  | ready (stop : Nat) (more : List Token)
      (ready : p.buffer.ready = us ++ loc.token ⟨.endTagOpen, j, String.ofList w⟩ stop :: more)
  | pending (locator : p.locator = loc) (ready : p.buffer.ready = us)
      (token : p.buffer.current = some ⟨.endTagOpen, j, String.ofList w⟩)
      (notHeld : p.buffer.heldBack = none) (running : p.finished = false)
      (state : betweenAttributes p.state = true)

namespace Place.InEndTag

theorem congr (h : p.InEndTag loc name i j ts v w s) (hp : q = { p with state := s' }) :
    q.InEndTag loc name i j ts v w s' := by
  subst hp
  exact { h with state := rfl }

section

variable (h : l.place.InEndTag loc name i j ts v w s) (hf : l.Faces k r)
include h hf

/-- The first letter of the name. -/
theorem firstLetter (hs : s = .rawTextEndTagOpen) (hg : Gives r c rest) (hc : c.isAlpha = true) :
    l.advanceStep.place.InEndTag loc name i j ts v w .rawTextEndTagName ∧ l.advanceStep.Faces k r := by
  obtain ⟨hhand, hsame⟩ := hf.entered
  have hstate : l.entered.state = .rawTextEndTagOpen :=
    (congrArg Place.state hsame).trans (h.state.trans hs)
  have hstep : l.entered.step = l.entered.reconsume .rawTextEndTagName := by
    simp only [step, hstate, (hhand.char_of_gives hg).1, onTextEndTagOpen, if_pos hc]
    rfl
  obtain ⟨hfaces, hplace⟩ := hf.advance_keep hstep rfl rfl
  refine ⟨h.congr ?_, hfaces⟩
  rw [hplace, ← hsame]
  rfl

/-- A letter of the name. -/
theorem letter (hs : s = .rawTextEndTagName) (hr : r = c :: rest) (hc : c.isAlpha = true) :
    l.advanceStep.place.InEndTag loc name i j ts v (w ++ [c]) .rawTextEndTagName ∧
      l.advanceStep.Faces (k + c.utf8Size) rest := by
  subst hr
  obtain ⟨hhand, hsame⟩ := hf.entered
  have hbreak : c ≠ '\r' := by
    rintro rfl
    cases hc
  have hstate : l.entered.state = .rawTextEndTagName :=
    (congrArg Place.state hsame).trans (h.state.trans hs)
  obtain ⟨hchar, -, hindex⟩ := hhand.cons hbreak
  have hstep : l.entered.step =
      { l.entered with endTagName := l.entered.endTagName.push c }.goto .rawTextEndTagName := by
    simp only [step, hstate, hchar]
    exact onTextEndTagName_letter hc
  obtain ⟨hfaces, hplace, -⟩ := hf.advance_take (.char rest hbreak) hstep rfl rfl
  have hletters : l.entered.endTagName = String.ofList w :=
    (congrArg Place.endTagName hsame).trans h.endTagName
  have hpush : l.advanceStep.place =
      { l.place with endTagName := l.entered.endTagName.push c, state := .rawTextEndTagName } := by
    rw [hplace, ← hsame]
    rfl
  rw [hpush]
  refine ⟨{ h with state := rfl, endTagName := ?_ }, hindex ▸ hfaces⟩
  rw [hletters]
  exact String.toList_inj.1 (by simp)

/-- What was held back is handed out, and the end tag starts. -/
theorem promote (hg : Gives r c rest) (hstep : l.entered.Promotes x) (hx : l.entered.step = x) :
    l.advanceStep.place.AtEndTag loc j w (loc.pending l.buffer.heldBack j) := by
  obtain ⟨hhand, hsame⟩ := hf.entered
  have hloc : l.entered.locator = loc := (congrArg Place.locator hsame).trans h.locator
  have hmark : l.entered.mark = j := (congrArg Place.mark hsame).trans h.mark
  have hletters : l.entered.endTagName = String.ofList w :=
    (congrArg Place.endTagName hsame).trans h.endTagName
  have hbuffer : l.entered.buffer = l.buffer := congrArg Place.buffer hsame
  obtain ⟨hready, htoken, hheld⟩ := l.entered.promoteHeldBack_buffer
    (congrArg TokenBuffer.ready hbuffer |>.trans h.ready)
    (congrArg TokenBuffer.current hbuffer |>.trans h.token)
  rw [hloc, hmark, hbuffer] at hready
  rw [hmark, hletters] at htoken
  -- the next token of the tag ends the name, or the name is still open behind a `/`
  cases hstep with
  | blank d =>
    obtain ⟨-, hplace, -⟩ := hf.advance_take hg hx rfl rfl
    rw [hplace]
    refine .ready l.entered.cursor.start [] ?_
    show (l.entered.promoteHeldBack.buffer.startAt l.entered.locator .whitespace _).ready = _
    rw [TokenBuffer.ready_startAt, hready, htoken, hloc]
    rfl
  | solidus =>
    obtain ⟨-, hplace, -⟩ := hf.advance_take hg hx rfl rfl
    rw [hplace]
    exact .pending hloc hready htoken hheld ((congrArg Place.finished hsame).trans h.running) rfl
  | close =>
    obtain ⟨-, hplace, -⟩ := hf.advance_take hg hx rfl rfl
    rw [hplace]
    refine .ready l.entered.cursor.start
      [loc.token ⟨.tagClose, l.entered.cursor.start, ""⟩ l.entered.cursor.index] ?_
    show (l.entered.promoteHeldBack.buffer.startAt l.entered.locator .tagClose _).ready ++ _ = _
    rw [TokenBuffer.ready_startAt, hready, htoken, List.append_assoc, ← hloc]
    rfl

/-- Whatever was held back is text. -/
theorem restore (hlt : j < k)
    (hstep : l.entered.step = (l.entered.restoreHeldBack .rawText).reconsume .rawText) :
    l.advanceStep.place.InRawText loc name i k ts (v ++ '<' :: '/' :: w) ∧
      l.advanceStep.Faces k r := by
  obtain ⟨hhand, hsame⟩ := hf.entered
  obtain ⟨hfaces, hplace⟩ := hf.advance_keep hstep rfl rfl
  have hbuffer : l.entered.buffer = l.buffer := congrArg Place.buffer hsame
  have hletters : l.entered.endTagName = String.ofList w :=
    (congrArg Place.endTagName hsame).trans h.endTagName
  have hname : "</" ++ l.entered.endTagName = String.ofList ('<' :: '/' :: w) := by
    rw [hletters]
    exact String.toList_inj.1 (by simp)
  have hrestored : ({ l.place with buffer := l.buffer.restore, state := .rawText } : Place).InRawText
      loc name i j ts v := by
    refine ⟨h.locator, rfl, h.running, rfl, h.named, ?_⟩
    show RawSoFar loc i j (ts ++ l.buffer.ready) l.buffer.heldBack v
    rw [show l.buffer.ready = [] from h.ready, List.append_nil]
    exact h.held
  refine ⟨hrestored.append .rawText rfl hlt _ ?_ ?_ ?_ ?_, hfaces⟩
  · rw [hplace, ← hsame]
    rfl
  · rw [hplace]
    rfl
  · rw [hplace, ← hsame]
    rfl
  · rw [hplace, ← hname, ← hbuffer, ← h.locator, ← h.mark, ← hsame]
    rfl

end
end Place.InEndTag

/-! ## The end tag -/

/-- What a step behind a `/` or a blank does with the token that is being built: the token is ready, it
stays, or the text is at its end. -/
inductive KeepsToken (e : Lexer) (t : PendingToken) (x : Lexer) : Prop
  | ready (stop : Nat) (more : List Token) (ready : x.buffer.ready = e.locator.token t stop :: more)
  | stays (place : x.place.buffer = e.buffer) (locator : x.locator = e.locator)
      (running : x.finished = e.finished) (state : betweenAttributes x.state = true)
  | atEnd (buffer : x.buffer = e.buffer) (locator : x.locator = e.locator)
      (char : e.cursor.char = none) (cursor : x.cursor = e.cursor) (again : x.again = e.again)

section

variable {t : PendingToken} (hready : e.buffer.ready = []) (htoken : e.buffer.current = some t)
include hready htoken

theorem ready_startAt_of_token (k : TokenKind) (stop : Nat) :
    (e.buffer.startAt e.locator k stop).ready = [e.locator.token t stop] := by
  rw [TokenBuffer.ready_startAt, hready, htoken]
  rfl

theorem keepsToken_oneCharToken (k : TokenKind) (s : LexState) :
    e.KeepsToken t ((e.oneCharToken k).goto s) := by
  refine .ready e.cursor.start [e.locator.token ⟨k, e.cursor.start, ""⟩ e.cursor.index] ?_
  show (e.buffer.startAt e.locator k e.cursor.start).ready ++ _ = _
  rw [ready_startAt_of_token hready htoken]
  rfl

theorem keepsToken_appendBlank (hk : t.kind ≠ .whitespace) (c : Char) (s : LexState) :
    e.KeepsToken t ((e.appendBlank c).goto s) := by
  refine .ready e.cursor.start [] ?_
  show (e.buffer.continueAs e.locator .whitespace e.cursor.start).ready = _
  have hne : ¬ e.buffer.current.map PendingToken.kind = some .whitespace := by
    rw [htoken]
    exact fun heq => hk (Option.some.inj heq)
  rw [TokenBuffer.continueAs, if_neg hne]
  exact ready_startAt_of_token hready htoken _ _

theorem keepsToken_startToken (k : TokenKind) (s : LexState) :
    e.KeepsToken t ((e.startToken k).reconsume s) :=
  .ready e.cursor.start [] (ready_startAt_of_token hready htoken k e.cursor.start)

theorem step_keepsToken (hk : t.kind ≠ .whitespace) (hs : betweenAttributes e.state = true) :
    e.KeepsToken t e.step := by
  unfold step
  dsimp only
  cases hstate : e.state <;> rw [hstate] at hs <;> cases hs
  case beforeAttributeName =>
    show e.KeepsToken t (e.onBeforeAttributeName _)
    unfold onBeforeAttributeName
    split
    iterate 3 exact .stays rfl rfl rfl rfl
    · exact .ready e.cursor.start [] (ready_startAt_of_token hready htoken .identifier e.cursor.start)
    · split
      · exact keepsToken_appendBlank hready htoken hk _ _
      · exact keepsToken_startToken hready htoken _ _
  case afterAttributeName =>
    show e.KeepsToken t (e.onAfterAttributeName _)
    unfold onAfterAttributeName
    split
    · exact .stays rfl rfl rfl rfl
    · exact keepsToken_oneCharToken hready htoken _ _
    · exact keepsToken_oneCharToken hready htoken _ _
    · next hat => exact .atEnd rfl rfl hat rfl rfl
    · split
      · exact keepsToken_appendBlank hready htoken hk _ _
      · exact keepsToken_startToken hready htoken _ _
  case selfClosingStartTag =>
    show e.KeepsToken t (e.onSelfClosingStartTag _)
    unfold onSelfClosingStartTag
    split
    · refine .ready e.mark
        [e.locator.token ⟨.selfClosingTagClose, e.mark, ""⟩ e.cursor.index] ?_
      show (e.buffer.startAt e.locator .selfClosingTagClose e.mark).ready ++ _ = _
      rw [ready_startAt_of_token hready htoken]
      rfl
    · next hat => exact .atEnd rfl rfl hat rfl rfl
    · exact .stays rfl rfl rfl rfl

end

theorem ready_finish (e : Lexer) : e.finish.buffer.ready = e.buffer.ready ++
    e.locator.pending e.buffer.heldBack e.cursor.index ++
      e.locator.pending e.buffer.current e.cursor.index := by
  show ((e.buffer.commitHeldBack _ _).commitCurrent _ _).ready = _
  rw [TokenBuffer.ready_commitCurrent, TokenBuffer.ready_commitHeldBack,
    TokenBuffer.current_commitHeldBack]

/-- At the end of the text the token gets ready at the latest. -/
theorem KeepsToken.finish {t : PendingToken} (h : e.KeepsToken t x) (hready : e.buffer.ready = [])
    (hheld : e.buffer.heldBack = none) (htoken : e.buffer.current = some t) :
    ∃ stop more, x.finish.buffer.ready = e.locator.token t stop :: more := by
  have hsame (hbuffer : x.buffer = e.buffer) (hloc : x.locator = e.locator) :
      x.finish.buffer.ready = [e.locator.token t x.cursor.index] := by
    rw [ready_finish, hbuffer, hloc, hready, hheld, htoken]
    rfl
  cases h with
  | ready stop more h =>
    rw [ready_finish, h]
    exact ⟨stop, _, rfl⟩
  | stays hbuffer hloc => exact ⟨_, [], hsame hbuffer hloc⟩
  | atEnd hbuffer hloc => exact ⟨_, [], hsame hbuffer hloc⟩

/-- An end tag that was started gets ready. -/
theorem Place.AtEndTag.comesTo (h : l.place.AtEndTag loc j w []) (ht : l.Tracks cs taken) :
    ∃ l' stop more, l.ComesTo l' ∧
      l'.buffer.ready = loc.token ⟨.endTagOpen, j, String.ofList w⟩ stop :: more := by
  generalize hn : l.potential = n
  induction n using Nat.strongRecOn generalizing l with
  | ind n ih =>
    subst hn
    cases h with
    | ready stop more hready => exact ⟨l, stop, more, .here, hready⟩
    | pending hloc hready htoken hheld hrunning hstate =>
      have hcomes : l.ComesTo l.advanceStep := .cons hready hrunning .here
      have hbuffer : l.entered.buffer = l.buffer := congrArg Place.buffer l.entered_place
      have hlocator : l.entered.locator = loc := (congrArg Place.locator l.entered_place).trans hloc
      have hready' := (congrArg TokenBuffer.ready hbuffer).trans hready
      have htoken' := (congrArg TokenBuffer.current hbuffer).trans htoken
      have hkeeps := l.entered.step_keepsToken hready' htoken'
        (show TokenKind.endTagOpen ≠ .whitespace by decide)
        ((congrArg (fun p => betweenAttributes p.state) l.entered_place).trans hstate)
      have heq := l.advanceStep_eq
      split at heq
      · obtain ⟨stop, more, hfinish⟩ := hkeeps.finish hready'
          ((congrArg TokenBuffer.heldBack hbuffer).trans hheld) htoken'
        refine ⟨_, stop, more, hcomes, ?_⟩
        rw [heq, ← hlocator]
        exact hfinish
      · next hgoes =>
        cases hkeeps with
        | ready stop more h =>
          refine ⟨_, stop, more, hcomes, ?_⟩
          rw [heq, ← hlocator]
          exact h
        | stays hbuffer' hloc' hrunning' hstate' =>
          have hbuffer'' : l.advanceStep.buffer = l.buffer := by
            rw [heq]
            exact hbuffer'.trans hbuffer
          have hnext : l.advanceStep.place.AtEndTag loc j w [] := by
            refine .pending ?_ ?_ ?_ ?_ ?_ ?_
            · rw [heq]
              exact hloc'.trans hlocator
            · exact (congrArg TokenBuffer.ready hbuffer'').trans hready
            · exact (congrArg TokenBuffer.current hbuffer'').trans htoken
            · exact (congrArg TokenBuffer.heldBack hbuffer'').trans hheld
            · rw [heq]
              exact hrunning'.trans ((congrArg Place.finished l.entered_place).trans hrunning)
            · rw [heq]
              exact hstate'
          obtain ⟨l', stop, more, hl', hready''⟩ := ih _ (ht.advanceStep_potential hrunning).1 hnext
            (ht.advanceStep hrunning hready) rfl
          exact ⟨l', stop, more, hcomes.trans hl', hready''⟩
        | atEnd hbuffer' hloc' hchar hcursor hagain =>
          rw [hcursor, hchar, hagain, l.entered_again] at hgoes
          exact absurd rfl hgoes

/-! ## The way to the end tag -/

/-- What `</` in raw text comes to, where `r` is the text behind it: it is text with the letters that
follow it, or the end tag. -/
inductive EndTagRead (loc : Locator) (name : String) (i j : Nat) (ts : List Token) (v r : List Char)
    (l : Lexer) : Prop
  | text {w rest : List Char} (eq : r = w ++ rest) (letters : ∀ c ∈ w, c.isAlpha = true)
      (none : ¬ EndTagStarts name ('<' :: '/' :: r))
      (inRawText : l.place.InRawText loc name i (j + 2 + byteLength w) ts (v ++ '<' :: '/' :: w))
      (faces : l.Faces (j + 2 + byteLength w) rest)
  | tag {w : List Char} {us : List Token} (starts : EndTagStarts name ('<' :: '/' :: r))
      (same : sameLetters (String.ofList w) name = true) (tokens : RawTokens loc i j (ts ++ us) v)
      (atEndTag : l.place.AtEndTag loc j w us)

namespace Place.InEndTag

theorem comesOn (h : l.place.InEndTag loc name i j ts v w s) : l.ComesTo l.advanceStep :=
  .cons h.ready h.running .here

theorem isAppropriateEndTag (hname : IsWord name) (h : e.place.InEndTag loc name i j ts v w s) :
    e.isAppropriateEndTag = sameLetters (String.ofList w) name := by
  have hletters : e.endTagName = String.ofList w := h.endTagName
  have hlast : e.buffer.lastStartTagName = name := h.named
  rw [Lexer.isAppropriateEndTag, hletters, hlast, bne_iff_ne.2 hname.1, Bool.true_and]

/-- The letters of the name, up to what follows them. -/
theorem read (hname : IsWord name) (h : l.place.InEndTag loc name i j ts v w .rawTextEndTagName)
    (hw : ∀ c ∈ w, c.isAlpha = true) (hf : l.Faces (j + 2 + byteLength w) r) :
    ∃ l', l.ComesTo l' ∧ EndTagRead loc name i j ts v (w ++ r) l' := by
  induction r generalizing w l with
  | nil =>
    obtain ⟨hhand, hsame⟩ := hf.entered
    have hstate : l.entered.state = .rawTextEndTagName := (congrArg Place.state hsame).trans h.state
    obtain ⟨hin, hfaces⟩ := h.restore hf (by omega) <| by
      simp only [step, hstate, hhand.char_nil]
      rfl
    refine ⟨_, h.comesOn, .text rfl hw ?_ hin hfaces⟩
    rw [endTagStarts_iff hname hw (by simp)]
    simp
  | cons c r ih =>
    by_cases hc : c.isAlpha = true
    · obtain ⟨hnext, hfaces⟩ := h.letter hf rfl rfl hc
      have hlength : j + 2 + byteLength w + c.utf8Size = j + 2 + byteLength (w ++ [c]) := by
        rw [Text.byteLength_append, Text.byteLength_cons, Text.byteLength_nil]
        omega
      rw [hlength] at hfaces
      have hletters : ∀ d ∈ w ++ [c], d.isAlpha = true := by
        intro d hd
        rcases List.mem_append.1 hd with hd | hd
        · exact hw d hd
        · exact List.mem_singleton.1 hd ▸ hc
      obtain ⟨l', hcomes, hread⟩ := ih hnext hletters hfaces
      rw [List.append_assoc] at hread
      exact ⟨l', h.comesOn.trans hcomes, hread⟩
    · have hc := eq_false_of_ne_true hc
      obtain ⟨hhand, hsame⟩ := hf.entered
      obtain ⟨d, rest, hg⟩ := Text.exists_gives (List.cons_ne_nil c r)
      -- a carriage return and a line feed end a name alike
      have hd : d.isAlpha = false ∧ endsTagName d = endsTagName c := by
        rcases hg.head? with heq | ⟨heq, rfl⟩
        · obtain rfl := Option.some.inj heq
          exact ⟨hc, rfl⟩
        · obtain rfl := Option.some.inj heq
          exact ⟨rfl, rfl⟩
      have hiff := endTagStarts_iff (r := c :: r) hname hw (by simpa using hc)
      have happ : l.entered.isAppropriateEndTag = sameLetters (String.ofList w) name := by
        rw [← hsame] at h
        exact isAppropriateEndTag hname h
      have hstate : l.entered.state = .rawTextEndTagName := (congrArg Place.state hsame).trans h.state
      have hstep : l.entered.step = l.entered.onTextEndTagName .rawText (some d) := by
        simp only [step, hstate, (hhand.char_of_gives hg).1]
      by_cases hends : sameLetters (String.ofList w) name = true ∧ endsTagName c = true
      · have hpromotes := onTextEndTagName_promotes (hd.2.trans hends.2) (happ.trans hends.1)
        refine ⟨_, h.comesOn, .tag (hiff.2 ⟨hends.1, c, rfl, hends.2⟩) hends.1 h.held.commit ?_⟩
        exact h.promote hf hg hpromotes hstep
      · obtain ⟨hin, hfaces⟩ := h.restore hf (by omega) <| by
          rw [hstep]
          refine onTextEndTagName_restores hd.1 ?_
          rw [happ, hd.2]
          by_cases hsame' : sameLetters (String.ofList w) name = true
          · exact .inl (eq_false_of_ne_true fun h => hends ⟨hsame', h⟩)
          · exact .inr (eq_false_of_ne_true hsame')
        refine ⟨_, h.comesOn, .text rfl hw ?_ hin hfaces⟩
        rw [hiff]
        rintro ⟨hsame', x, hx, hx'⟩
        obtain rfl := Option.some.inj hx
        exact hends ⟨hsame', hx'⟩

/-- The same right behind `</`. -/
theorem readOpen (hname : IsWord name) (h : l.place.InEndTag loc name i j ts v [] .rawTextEndTagOpen)
    (hf : l.Faces (j + 2) r) : ∃ l', l.ComesTo l' ∧ EndTagRead loc name i j ts v r l' := by
  obtain ⟨hhand, hsame⟩ := hf.entered
  have hstate : l.entered.state = .rawTextEndTagOpen := (congrArg Place.state hsame).trans h.state
  by_cases hletter : ∃ c rest, Gives r c rest ∧ c.isAlpha = true
  · obtain ⟨c, rest, hg, hc⟩ := hletter
    obtain ⟨hnext, hfaces⟩ := h.firstLetter hf rfl hg hc
    obtain ⟨l', hcomes, hread⟩ := hnext.read hname (by simp) hfaces
    exact ⟨l', h.comesOn.trans hcomes, hread⟩
  · obtain ⟨hin, hfaces⟩ := h.restore hf (by omega) <| by
      simp only [step, hstate]
      show l.entered.onTextEndTagOpen .rawText _ = _
      unfold onTextEndTagOpen
      split
      · next c hat =>
        rw [if_neg]
        exact fun hc => hletter ⟨c, _, hhand.gives hat, hc⟩
      · rfl
    refine ⟨_, h.comesOn, .text (w := []) rfl (by simp) ?_ hin hfaces⟩
    rintro ⟨w, c, rest, heq, hsame', -⟩
    obtain ⟨d, tail, rfl⟩ := List.exists_cons_of_ne_nil (ne_nil_of_sameLetters hname hsame')
    have hd := isAlpha_of_sameLetters hname hsame' d (List.mem_cons_self ..)
    obtain rfl : r = d :: (tail ++ c :: rest) := by simpa using heq
    refine hletter ⟨d, _, .char _ ?_, hd⟩
    rintro rfl
    cases hd

end Place.InEndTag

/-- What one turn of the lexer in raw text comes to: a piece of the text is read, in which no end tag
starts, or the end tag starts here. -/
inductive RawTextTurn (loc : Locator) (name : String) (i j : Nat) (ts : List Token) (v r : List Char)
    (l : Lexer) : Prop
  | text {k : Nat} {front rest w : List Char} (eq : r = front ++ rest) (ne : front ≠ [])
      (ends : ∀ p, RawTextEnds name rest p → RawTextEnds name r (front.length + p))
      (value : w ++ unifyBreaks rest = v ++ unifyBreaks r)
      (index : k + byteLength rest = j + byteLength r)
      (inRawText : l.place.InRawText loc name i k ts w) (faces : l.Faces k rest)
  | endTag {w : List Char} {us : List Token} (starts : EndTagStarts name r)
      (same : sameLetters (String.ofList w) name = true) (tokens : RawTokens loc i j (ts ++ us) v)
      (atEndTag : l.place.AtEndTag loc j w us)

theorem EndTagRead.turn (h : l.EndTagRead loc name i j ts v r) :
    l.RawTextTurn loc name i j ts v ('<' :: '/' :: r) := by
  cases h with
  | tag starts same tokens atEndTag => exact .endTag starts same tokens atEndTag
  | @text w rest eq letters none inRawText faces =>
    subst eq
    have hne : ∀ d ∈ '/' :: w, d ≠ '<' ∧ d ≠ '\r' := by
      intro d hd
      rcases List.mem_cons.1 hd with rfl | hd
      · decide
      · have halpha := letters d hd
        refine ⟨?_, ?_⟩ <;> rintro rfl <;> cases halpha
    have hunify : unifyBreaks ('/' :: w ++ rest) = '/' :: w ++ unifyBreaks rest :=
      Text.unifyBreaks_append_of_ne fun d hd => (hne d hd).2
    have hfront : '<' :: '/' :: (w ++ rest) = '<' :: '/' :: w ++ rest := rfl
    refine .text hfront (List.cons_ne_nil _ _) (fun p hp => ?_) ?_ ?_ inRawText faces
    · have hbehind := hp.append fun d hd => (hne d hd).1
      have hall := hbehind.cons none
      rwa [Nat.add_right_comm] at hall
    · rw [List.append_assoc, Text.unifyBreaks_cons (by decide)]
      exact congrArg (fun u => v ++ '<' :: u) hunify.symm
    · simp only [Text.byteLength_cons, Text.byteLength_append]
      have hsize : '<'.utf8Size = 1 ∧ '/'.utf8Size = 1 := ⟨rfl, rfl⟩
      omega

/-- The turn at a character that no end tag starts with. -/
theorem Place.InRawText.turn_char (h : l.place.InRawText loc name i j ts v) (hf : l.Faces j r)
    (hg : Gives r c rest) (hc : c ≠ '<') : l.advanceStep.RawTextTurn loc name i j ts v r := by
  obtain ⟨k, h', hf', hk⟩ := h.char hf hg hc
  obtain ⟨front, heq, hfront⟩ := hg.exists_append
  refine .text heq ?_ (fun p hp => ?_) ?_ hk h' hf'
  · rintro rfl
    have hlt := hg.byteLength_lt
    rw [heq] at hlt
    exact absurd hlt (Nat.lt_irrefl _)
  · rw [heq]
    refine hp.append fun x hx => ?_
    rcases hfront x hx with rfl | rfl | rfl
    · exact hc
    · decide
    · decide
  · rw [hg.unifyBreaks, List.append_assoc]
    rfl

/-- The turn at a `<`. -/
theorem Place.InRawText.turn_less (hname : IsWord name) (h : l.place.InRawText loc name i j ts v)
    (hready : l.buffer.ready = []) (hf : l.Faces j ('<' :: r)) :
    ∃ l', l.ComesTo l' ∧ l'.RawTextTurn loc name i j ts v ('<' :: r) := by
  obtain ⟨hplace, hfaces⟩ := h.less hf
  have hcomes : l.ComesTo l.advanceStep := .cons hready h.running .here
  have hcomes' := hcomes.step ((congrArg (fun p => p.buffer.ready) hplace).trans hready)
    ((congrArg Place.finished hplace).trans h.running)
  by_cases hsolidus : r.head? = some '/'
  · obtain ⟨r, rfl⟩ := List.head?_eq_some_iff.1 hsolidus
    obtain ⟨hopen, hfaces'⟩ := h.holdBack hready hplace hfaces
    obtain ⟨l', hread, h'⟩ := hopen.readOpen hname hfaces'
    exact ⟨l', hcomes'.trans hread, h'.turn⟩
  · obtain ⟨h', hfaces'⟩ := h.behindLess hplace hfaces hsolidus
    have hfront : '<' :: r = ['<'] ++ r := rfl
    refine ⟨_, hcomes', .text hfront (List.cons_ne_nil _ _) (fun p hp => ?_) ?_ ?_ h' hfaces'⟩
    · refine Nat.add_comm p 1 ▸ hp.cons fun hstarts => hsolidus ?_
      obtain ⟨tail, heq⟩ := hstarts.eq_cons
      rw [(List.cons.inj heq).2]
      rfl
    · rw [List.append_assoc, Text.unifyBreaks_cons (by decide)]
      rfl
    · rw [Text.byteLength_cons]
      have hsize : '<'.utf8Size = 1 := rfl
      omega

/-- Each turn in raw text. -/
theorem Place.InRawText.turn (hname : IsWord name) (h : l.place.InRawText loc name i j ts v)
    (hready : l.buffer.ready = []) (hf : l.Faces j r) (hr : r ≠ []) :
    ∃ l', l.ComesTo l' ∧ l'.RawTextTurn loc name i j ts v r := by
  by_cases hless : r.head? = some '<'
  · obtain ⟨r, rfl⟩ := List.head?_eq_some_iff.1 hless
    exact h.turn_less hname hready hf
  · obtain ⟨c, rest, hg⟩ := Text.exists_gives hr
    refine ⟨_, .cons hready h.running .here, h.turn_char hf hg ?_⟩
    rintro rfl
    rcases hg.head? with heq | ⟨-, heq⟩
    · exact hless heq
    · cases heq

/-- The lexer is behind raw text, in front of this text: the end tag is the next token, or the text is
at its end. -/
inductive RawTextOver (loc : Locator) (name : String) (j : Nat) (rest : List Char) (l : Lexer) : Prop
  | endTag {w : List Char} {stop : Nat} {more : List Token} (starts : EndTagStarts name rest)
      (same : sameLetters (String.ofList w) name = true)
      (ready : l.buffer.ready = loc.token ⟨.endTagOpen, j, String.ofList w⟩ stop :: more)
  | atEnd (rest : rest = []) (ended : l.finished = true) (ready : l.buffer.ready = [])

end Lexer

namespace Builder

open Lexer (RawTextOver)

variable {b b' : Builder} {l l' : Lexer} {cs front : List Char} {taken new : List Token}

/-- The builder, behind the tokens `us`, takes the tokens of raw text up to where it ends. -/
def ReadsRawText (b : Builder) (us : List Token) (loc : Locator) (name : String) (i j : Nat)
    (ts : List Token) (v r : List Char) : Prop :=
  ∃ p new b' l' stop value, RawTextEnds name r p ∧ b.Lexes (us ++ new) b' l' ∧
    RawTokens loc i stop (ts ++ new) value ∧ value ++ unifyBreaks (r.drop p) = v ++ unifyBreaks r ∧
      stop + byteLength (r.drop p) = j + byteLength r ∧ l'.RawTextOver loc name stop (r.drop p)

/-- A piece of raw text is read, and then the rest. -/
theorem ReadsRawText.behind (h : b.ReadsRawText (us ++ new) loc name i k (ts ++ new) w rest)
    (hr : r = front ++ rest)
    (hends : ∀ p, RawTextEnds name rest p → RawTextEnds name r (front.length + p))
    (hw : w ++ unifyBreaks rest = v ++ unifyBreaks r)
    (hk : k + byteLength rest = j + byteLength r) : b.ReadsRawText us loc name i j ts v r := by
  obtain ⟨p, new', b', l', stop, value, hp, hlexes, htokens, hvalue, hstop, hover⟩ := h
  have hdrop : r.drop (front.length + p) = rest.drop p := by
    rw [hr, List.drop_length_add_append]
  refine ⟨front.length + p, new ++ new', b', l', stop, value, hends p hp, ?_, ?_, ?_, ?_, ?_⟩
  · rwa [← List.append_assoc]
  · rwa [← List.append_assoc]
  · rw [hdrop, hvalue, hw]
  · rw [hdrop, hstop, hk]
  · rwa [hdrop]

/-- The tokens of raw text that are ready are taken. -/
theorem Lexes.handRawText (hr : Runs cs loc taken b) (hl : b.Lexes us b' l)
    (h : l.place.InRawText loc name i k ts v) (hf : l.Faces k r) :
    ∃ new b'' l', b.Lexes (us ++ new) b'' l' ∧ l'.place.InRawText loc name i k (ts ++ new) v ∧
      l'.buffer.ready = [] ∧ l'.Faces k r := by
  have hclosing : ∀ t ∈ l.buffer.ready, t.kind.closesTag = false := fun t ht =>
    TokenKind.closesTag_of_isRawText (h.soFar.ready t (List.mem_append_right ts ht))
  obtain ⟨b'', l', hlexes, htold⟩ := hl.handAll hr rfl hclosing
  have hplace := htold.place
  refine ⟨l.buffer.ready, b'', l', hlexes, ?_, ?_, htold.faces (hf.congr rfl rfl)⟩
  · rw [hplace]
    refine ⟨h.locator, h.state, h.running, h.notHeld, h.named, ?_⟩
    show RawSoFar loc i k (ts ++ l.buffer.ready ++ []) l.buffer.current v
    rw [List.append_nil]
    exact h.soFar
  · exact congrArg (fun p => p.buffer.ready) hplace

/-- Raw text up to the end of the text. -/
theorem Lexes.readsRawText_atEnd (hr : Runs cs loc taken b) (hl : b.Lexes us b' l)
    (h : l.place.InRawText loc name i j ts v) (hready : l.buffer.ready = []) (hf : l.Faces j []) :
    b.ReadsRawText us loc name i j ts v [] := by
  obtain ⟨hhand, hsame⟩ := hf.entered
  have hstate : l.entered.state = .rawText := (congrArg Lexer.Place.state hsame).trans h.state
  have hstep : l.entered.step = l.entered.goto .rawText := by
    simp only [Lexer.step, hstate, hhand.char_nil]
    rfl
  obtain ⟨hplace, hindex⟩ := hf.advance_atEnd hstep rfl rfl
  have hbuffer : l.entered.buffer = l.buffer := congrArg Lexer.Place.buffer hsame
  have hloc : l.entered.locator = loc := (congrArg Lexer.Place.locator hsame).trans h.locator
  have hheld : l.buffer.heldBack = none := h.notHeld
  have hnext : l.advanceStep.buffer.ready = loc.pending l.buffer.current j := by
    refine (congrArg (fun p => p.buffer.ready) hplace).trans ?_
    show (l.entered.goto .rawText).finish.buffer.ready = _
    rw [Lexer.ready_finish, hindex]
    show l.entered.buffer.ready ++ l.entered.locator.pending l.entered.buffer.heldBack j ++
      l.entered.locator.pending l.entered.buffer.current j = _
    rw [hbuffer, hloc, hready, hheld]
    rfl
  have hsoFar := h.soFar
  have htokens := hsoFar.commit
  rw [show l.place.buffer.ready = [] from hready, List.append_nil] at htokens
  have hclosing : ∀ t ∈ loc.pending l.buffer.current j, t.kind.closesTag = false := fun t ht =>
    TokenKind.closesTag_of_isRawText (htokens.isRawText t (List.mem_append_right ts ht))
  obtain ⟨b'', l', hlexes, htold⟩ := (hl.step hready h.running).handAll hr hnext hclosing
  refine ⟨0, _, b'', l', j, v, .atEnd, hlexes, htokens, rfl, rfl, .atEnd rfl ?_ ?_⟩
  · exact (congrArg Lexer.Place.finished htold.place).trans
      ((congrArg Lexer.Place.finished hplace).trans rfl)
  · exact congrArg (fun p => p.buffer.ready) htold.place

/-- Raw text up to an end tag that was started. -/
theorem Lexes.readsRawText_atEndTag (hr : Runs cs loc taken b) (hl : b.Lexes us b' l)
    (hstarts : EndTagStarts name r) (hsame : sameLetters (String.ofList w) name = true)
    (htokens : RawTokens loc i j (ts ++ new) v) (h : l.place.AtEndTag loc j w new) :
    b.ReadsRawText us loc name i j ts v r := by
  have hclosing : ∀ t ∈ new, t.kind.closesTag = false := fun t ht =>
    TokenKind.closesTag_of_isRawText (htokens.isRawText t (List.mem_append_right ts ht))
  cases h with
  | ready stop more hready =>
    obtain ⟨b'', l', hlexes, htold⟩ := hl.handSome hr hready hclosing
    refine ⟨0, new, b'', l', j, v, .atEndTag hstarts, hlexes, htokens, rfl, rfl, ?_⟩
    exact .endTag hstarts hsame (congrArg (fun p => p.buffer.ready) htold.place)
  | pending hloc hready htoken hheld hrunning hstate =>
    obtain ⟨b'', l', hlexes, htold⟩ := hl.handAll hr hready hclosing
    have hplace := htold.place
    have htag : l'.place.AtEndTag loc j w [] := by
      rw [hplace]
      exact .pending hloc rfl htoken hheld hrunning hstate
    obtain ⟨x, stop, more, hcomes, hready'⟩ := htag.comesTo (hlexes.tracks hr)
    refine ⟨0, new, b'', x, j, v, .atEndTag hstarts, hlexes.goesOn hcomes, htokens, rfl, rfl, ?_⟩
    exact .endTag hstarts hsame hready'

/-- Raw text is read up to where it ends. -/
theorem Lexes.readsRawText (hname : IsWord name) (hr : Runs cs loc taken b) (hl : b.Lexes us b' l)
    (h : l.place.InRawText loc name i j ts v) (hready : l.buffer.ready = []) (hf : l.Faces j r) :
    b.ReadsRawText us loc name i j ts v r := by
  generalize hn : r.length = n
  induction n using Nat.strongRecOn generalizing us b' l j ts v r with
  | ind n ih =>
    subst hn
    by_cases hnil : r = []
    · subst hnil
      exact hl.readsRawText_atEnd hr h hready hf
    · obtain ⟨l', hcomes, hturn⟩ := h.turn hname hready hf hnil
      have hl' := hl.goesOn hcomes
      cases hturn with
      | endTag starts same tokens atEndTag =>
        exact hl'.readsRawText_atEndTag hr starts same tokens atEndTag
      | @text k front rest w eq ne ends value index inRawText faces =>
        obtain ⟨new, b'', l'', hl'', h'', hready'', hf''⟩ := hl'.handRawText hr inRawText faces
        have hlt : rest.length < r.length := by
          have hpos := List.length_pos_of_ne_nil ne
          rw [eq, List.length_append]
          omega
        exact (ih _ hlt hl'' h'' hready'' hf'' rfl).behind eq ends value index

end Builder
end TemplateSyntax
