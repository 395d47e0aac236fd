import TemplateSyntax.Proofs.BuilderRun
import TemplateSyntax.Proofs.RunMove

/-! # The tokens that a lexer is going to yield

`Lexer.Yields` says which tokens a lexer hands out up to the end of the text, whatever it is told on
the way.  What counts of a lexer between two steps, as long as nothing is wrong, is its `View`: the
rules at the end of this module tell what a lexer yields from what is in view, one step at a
time. -/

namespace TemplateSyntax
namespace Lexer

open Text (byteLength)

variable {cs : List Char} {taken ts : List Token} {l l' x : Lexer}

/-- Enough steps are as good as any other number of them. -/
theorem Tracks.run_eq {fuel fuel' : Nat} (h : Tracks cs taken l) (hle : l.potential ≤ fuel)
    (hle' : l.potential ≤ fuel') : l.run fuel = l.run fuel' := by
  induction fuel generalizing l fuel' with
  | zero =>
    cases hr : l.buffer.ready with
    | cons t ready => rw [run_ready hr, run_ready hr]
    | nil =>
      cases hf : l.finished with
      | true => rw [run_finished hr hf, run_finished hr hf]
      | false => exact absurd (potential_pos hf) (Nat.not_lt.2 hle)
  | succ fuel ih =>
    cases hr : l.buffer.ready with
    | cons t ready => rw [run_ready hr, run_ready hr]
    | nil =>
      cases hf : l.finished with
      | true => rw [run_finished hr hf, run_finished hr hf]
      | false =>
        have hpos := potential_pos hf
        obtain ⟨hpot, -⟩ := h.advanceStep_potential hf
        obtain ⟨fuel', rfl⟩ : ∃ n, fuel' = n + 1 := ⟨fuel' - 1, by omega⟩
        rw [run_succ hr hf, run_succ hr hf]
        exact ih (h.advanceStep hf hr) (by omega) (by omega)

/-- A step that is needed to get at the next token can be taken before it is asked for. -/
theorem Tracks.pull_advanceStep (h : Tracks cs taken l) (hr : l.buffer.ready = [])
    (hf : l.finished = false) : l.pull = l.advanceStep.pull := by
  have hpos := potential_pos hf
  have hle := l.potential_le
  obtain ⟨hpot, -⟩ := h.advanceStep_potential hf
  obtain ⟨n, hn⟩ : ∃ n, l.stepsLeft = n + 1 := ⟨l.stepsLeft - 1, by omega⟩
  rw [Lexer.pull, hn, run_succ hr hf, Lexer.pull]
  exact (h.advanceStep hf hr).run_eq (by omega) l.advanceStep.potential_le

/-- The lexer hands out these tokens, whatever it is told between them, and comes to the end of the
text without having found anything wrong. -/
def Yields : List Token → Lexer → Prop
  | [], l => ∃ x, l.pull = (none, x) ∧ x.diagnostics = #[]
  | t :: ts, l => ∃ x, l.pull = (some t, x) ∧ ∀ y, x.Told y → Yields ts y

theorem Yields.of_pull (hpull : l.pull = l'.pull) (h : l'.Yields ts) : l.Yields ts := by
  cases ts with
  | nil =>
    obtain ⟨x, hx, hd⟩ := h
    exact ⟨x, hpull.trans hx, hd⟩
  | cons t ts =>
    obtain ⟨x, hx, hrest⟩ := h
    exact ⟨x, hpull.trans hx, hrest⟩

/-- What is ready is handed out first. -/
theorem Yields.hand {t : Token} {ready : List Token} (hr : l.buffer.ready = t :: ready)
    (h : ∀ y, Told { l with buffer := { l.buffer with ready } } y → y.Yields ts) :
    l.Yields (t :: ts) :=
  ⟨_, run_ready hr _, h⟩

/-- At the end of the text only what is ready is left. -/
theorem Yields.atEnd (hf : l.finished = true) (hd : l.diagnostics = #[]) :
    l.Yields l.buffer.ready := by
  generalize hr : l.buffer.ready = ready
  induction ready generalizing l with
  | nil => exact ⟨l, run_finished hr hf _, hd⟩
  | cons t ready ih =>
    refine .hand hr fun y hy => ?_
    obtain ⟨ns, interpolating, log, rfl⟩ := hy
    exact ih (l := { l with buffer := { l.buffer with ready }, ns, interpolating, log }) hf hd rfl

/-! ## What is in view -/

/-- The state of a lexer, the index of what it reads next and the text from there on, the token that
is being built and those that are ready. -/
structure View where
  state : LexState
  mark : Nat
  index : Nat
  ahead : List Char
  token : Option PendingToken
  ready : List Token

/-- The lexer is going to read the text `ahead`, which starts at an index.  It may have its first
character at hand already. -/
inductive Reads (index : Nat) (l : Lexer) : List Char → Prop
  | next {ahead : List Char} (again : l.again = false) (here : l.cursor.index = index)
      (rest : l.cursor.rest = ahead) : Reads index l ahead
  | same {c : Char} {ahead : List Char} (again : l.again = true) (start : l.cursor.start = index)
      (char : l.cursor.char = some c) (here : l.cursor.index = index + c.utf8Size)
      (rest : l.cursor.rest = ahead) : Reads index l (c :: ahead)

/-- Nothing but the cursor decides on what is read. -/
theorem Reads.congr {index : Nat} {ahead : List Char} (h : l.Reads index ahead)
    (hcursor : l'.cursor = l.cursor) (hagain : l'.again = l.again) : l'.Reads index ahead := by
  cases h with
  | next again here rest =>
    exact .next (hagain.trans again) (by rw [hcursor, here]) (by rw [hcursor, rest])
  | same again start char here rest =>
    exact .same (hagain.trans again) (by rw [hcursor, start]) (by rw [hcursor, char])
      (by rw [hcursor, here]) (by rw [hcursor, rest])

/-- What shows of a lexer in which nothing is wrong. -/
structure Shows (loc : Locator) (v : View) (l : Lexer) : Prop where
  locator : l.locator = loc
  state : l.state = v.state
  mark : l.mark = v.mark
  reads : l.Reads v.index v.ahead
  token : l.buffer.current = v.token
  ready : l.buffer.ready = v.ready
  notHeld : l.buffer.heldBack = none
  running : l.finished = false
  diagnostics : l.diagnostics = #[]

/-- The lexer has a character at hand, or the end of the text when there is none. -/
structure Holds (loc : Locator) (v : View) (at? : Option Char) (rest : List Char) (l : Lexer) :
    Prop where
  locator : l.locator = loc
  state : l.state = v.state
  mark : l.mark = v.mark
  again : l.again = false
  char : l.cursor.char = at?
  start : l.cursor.start = v.index
  here : l.cursor.index = v.index + (at?.map Char.utf8Size).getD 0
  rest : l.cursor.rest = rest
  token : l.buffer.current = v.token
  ready : l.buffer.ready = v.ready
  notHeld : l.buffer.heldBack = none
  running : l.finished = false
  diagnostics : l.diagnostics = #[]

/-- A character that is read as it is, and is not wrong. -/
def IsSound (c : Char) : Prop := c ≠ '\r' ∧ Cursor.inputFault? c = none

variable {loc : Locator} {v v' : View} {c : Char} {rest : List Char}

/-- The next step has the next character at hand. -/
theorem Shows.entered (h : l.Shows loc v) (hv : v.ahead = c :: rest) (hc : IsSound c) :
    l.entered.Holds loc v (some c) rest := by
  have hreads := h.reads
  rw [hv] at hreads
  cases hreads with
  | same again start char here hrest =>
    rw [Lexer.entered, if_pos again]
    exact { h with again := rfl, char, start, here, rest := hrest }
  | next again here hrest =>
    have hcursor : l.cursor.advance =
        ⟨rest, v.index + c.utf8Size, c :: rest, v.index, some c⟩ := by
      unfold Cursor.advance
      rw [hrest]
      split
      · next heq => cases heq
      · next heq => exact absurd (List.cons.inj heq).1 hc.1
      · next heq => exact absurd (List.cons.inj heq).1 hc.1
      · next heq =>
        obtain ⟨rfl, rfl⟩ := List.cons.inj heq
        rw [here]
    have hdropped : l.cursor.droppedLineFeed? = none := by
      unfold Cursor.droppedLineFeed?
      rw [hrest]
      split
      · next heq => exact absurd (List.cons.inj heq).1 hc.1
      · rfl
    have hadvance : l.advance = { l with cursor := l.cursor.advance } := by
      simp [advance, moveOn, hdropped, hcursor, hc.2]
    rw [Lexer.entered, if_neg (by simp [again]), hadvance, hcursor]
    exact { h with again, char := rfl, start := rfl, here := rfl, rest := rfl }

/-- At the end of the text there is no character. -/
theorem Shows.entered_nil (h : l.Shows loc v) (hv : v.ahead = []) :
    l.entered.Holds loc v none [] := by
  have hreads := h.reads
  rw [hv] at hreads
  cases hreads with
  | next again here hrest =>
    have hcursor : l.cursor.advance = ⟨[], v.index, [], v.index, none⟩ := by
      rw [Cursor.advance, hrest, here]
    have hdropped : l.cursor.droppedLineFeed? = none := by
      rw [Cursor.droppedLineFeed?, hrest]
    have hadvance : l.advance = { l with cursor := l.cursor.advance } := by
      simp [advance, moveOn, hdropped, hcursor]
    rw [Lexer.entered, if_neg (by simp [again]), hadvance, hcursor]
    exact { h with again, char := rfl, start := rfl, here := rfl, rest := rfl }

/-- A lexer that shows what is in view is going to yield these tokens. -/
def View.Yields (cs : List Char) (loc : Locator) (v : View) (ts : List Token) : Prop :=
  ∀ (l : Lexer) (taken : List Token), l.Tracks cs taken → l.Shows loc v → l.Yields ts

namespace View

/-- A step is taken when no token is ready. -/
theorem Yields.step (hr : v.ready = []) (hv : v.ahead = c :: rest) (hc : IsSound c)
    (hstep : ∀ e : Lexer, e.Holds loc v (some c) rest →
      (e.step.again = true ∨ e.step.cursor.char.isSome) ∧ e.step.Shows loc v')
    (h : v'.Yields cs loc ts) : v.Yields cs loc ts := by
  intro l taken ht hl
  have hready : l.buffer.ready = [] := hl.ready.trans hr
  refine .of_pull (ht.pull_advanceStep hready hl.running) ?_
  refine h _ _ (ht.advanceStep hl.running hready) ?_
  obtain ⟨hgoes, hshows⟩ := hstep _ (hl.entered hv hc)
  rw [advanceStep_eq, if_neg (by rcases hgoes with hgoes | hgoes <;>
    simp_all [Option.isSome_iff_ne_none])]
  exact { hshows with reads := hshows.reads.congr rfl rfl }

/-- The step takes the character. -/
theorem Yields.take {s : LexState} {mark : Nat} {token : Option PendingToken} {ready : List Token}
    (hr : v.ready = []) (hv : v.ahead = c :: rest) (hc : IsSound c)
    (hstep : ∀ e : Lexer, e.Holds loc v (some c) rest → ∃ b : TokenBuffer,
      e.step = { e with state := s, mark, buffer := b } ∧ b.heldBack = none ∧
        b.current = token ∧ b.ready = ready)
    (h : Yields cs loc ⟨s, mark, v.index + c.utf8Size, rest, token, ready⟩ ts) :
    v.Yields cs loc ts := by
  refine .step hr hv hc (fun e he => ?_) h
  obtain ⟨b, hb, hheld, hcurrent, hready⟩ := hstep e he
  rw [hb]
  refine ⟨.inr (by simp [he.char]), ?_⟩
  exact { he with
    state := rfl, mark := rfl, reads := .next he.again he.here he.rest, token := hcurrent
    ready := hready, notHeld := hheld }

/-- The step goes on with the character in another state. -/
theorem Yields.keep {s : LexState} {mark : Nat} {token : Option PendingToken} {ready : List Token}
    (hr : v.ready = []) (hv : v.ahead = c :: rest) (hc : IsSound c)
    (hstep : ∀ e : Lexer, e.Holds loc v (some c) rest → ∃ b : TokenBuffer,
      e.step = { e with state := s, mark, buffer := b, again := true } ∧ b.heldBack = none ∧
        b.current = token ∧ b.ready = ready)
    (h : Yields cs loc ⟨s, mark, v.index, c :: rest, token, ready⟩ ts) : v.Yields cs loc ts := by
  refine .step hr hv hc (fun e he => ?_) h
  obtain ⟨b, hb, hheld, hcurrent, hready⟩ := hstep e he
  rw [hb]
  refine ⟨.inl rfl, ?_⟩
  exact { he with
    state := rfl, mark := rfl, reads := .same rfl he.start he.char he.here he.rest
    token := hcurrent, ready := hready, notHeld := hheld }

/-- A token is handed out when it is ready. -/
theorem Yields.hand {t : Token} {ready : List Token} (hr : v.ready = t :: ready)
    (h : Yields cs loc { v with ready } ts) : v.Yields cs loc (t :: ts) := by
  intro l taken ht hl
  have hready : l.buffer.ready = t :: ready := hl.ready.trans hr
  refine .hand hready fun y hy => ?_
  obtain ⟨ns, interpolating, log, rfl⟩ := hy
  refine h _ _ ((ht.take hready).outside ns interpolating log) ?_
  exact { hl with reads := hl.reads.congr rfl rfl, ready := rfl }

/-- All that is ready is handed out. -/
theorem Yields.handAll {ready : List Token} (hr : v.ready = ready)
    (h : Yields cs loc { v with ready := [] } ts) : v.Yields cs loc (ready ++ ts) := by
  induction ready generalizing v with
  | nil =>
    have hv : { v with ready := [] } = v := by rw [← hr]
    exact hv ▸ h
  | cons t ready ih => exact .hand hr (ih rfl h)

end View
end Lexer
end TemplateSyntax
