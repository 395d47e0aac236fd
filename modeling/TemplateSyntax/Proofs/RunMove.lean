import TemplateSyntax.Proofs.LexerMove

/-! # Runs on relocated markup

Between two steps the lexers of two readings know the fields that are in use.  They hand out the same
tokens, as long as the first one has not come to the end of its text where the text of the second one
goes on. -/

namespace TemplateSyntax
namespace Lexer

variable {r : Relocation} {seen : Prop} {l l' : Lexer} {cs : List Char} {taken : List Token}

/-- The fields that count between two steps. -/
def inUse (l : Lexer) : List Field := if l.again then .here :: l.state.needs else l.state.needs

/-- The lexers of two readings between two steps. -/
def Follows (r : Relocation) (seen : Prop) (l l' : Lexer) : Prop := l.Moved r seen l.inUse l'

theorem InStep.follows (h : InStep r seen l l') : Follows r seen l l' := by
  refine h.weaken fun x hx => ?_
  unfold inUse at hx
  split at hx
  · exact hx
  · exact List.mem_cons_of_mem _ hx

/-! ## One step -/

theorem Follows.entered (h : Follows r seen l l')
    (hc : l.again = false → r.Closes l.cursor.rest) :
    l.entered.Moved r seen (.here :: l.state.needs) l'.entered := by
  unfold Lexer.entered
  rw [h.again]
  cases ha : l.again with
  | true =>
    have huse : l.inUse = .here :: l.state.needs := by rw [inUse, if_pos ha]
    have hmoved : l.Moved r seen (.here :: l.state.needs) l' := huse ▸ h
    rw [if_pos rfl]
    exact { hmoved with
      again := rfl
      known := fun x hx => by cases x <;> exact hmoved.known _ hx }
  | false =>
    have huse : l.inUse = l.state.needs := by rw [inUse, if_neg (by simp [ha])]
    have hmoved : l.Moved r seen l.state.needs l' := huse ▸ h
    exact hmoved.advance (hc ha)

theorem Moved.finish {known : List Field} (h : l.Moved r seen known l') :
    l.finish.Moved r seen known l'.finish := by
  have hbuffer := (h.buffer.commitHeldBack l.cursor.index).commitCurrent l.cursor.index
  exact { h with
    finished := rfl
    buffer := by
      simp only [Lexer.finish, h.source, h.target, h.index]
      exact hbuffer
    known := fun x hx => by cases x <;> exact h.known _ hx }

theorem Moved.withLog {known : List Field} (h : l.Moved r seen known l')
    (log log' : Array LogEntry) :
    ({ l with log } : Lexer).Moved r seen known { l' with log := log' } :=
  { h with known := fun x hx => by cases x <;> exact h.known _ hx }

theorem Follows.advanceStep (h : Follows r seen l l') (ht : Tracks cs taken l)
    (hf : l.finished = false) (hc : l.again = false → r.Closes l.cursor.rest) :
    Follows r seen l.advanceStep l'.advanceStep := by
  obtain ⟨he, -, hstate⟩ := ht.enters hf
  have hentered := h.entered hc
  rw [← hstate] at hentered
  have hstep : InStep r seen l.entered.step l'.entered.step := step_moved he hentered
  have hchar := (hstep.known .here (List.mem_cons_self ..)).2.2.1
  refine InStep.follows ?_
  rw [advanceStep_eq, advanceStep_eq, hchar, hstep.again]
  split
  · exact hstep.finish.withLog _ _
  · exact hstep.withLog _ _

/-! ## The end of the text -/

/-- The end of the text was taken. -/
def Spent (l : Lexer) : Prop := l.cursor.rest = [] ∧ l.cursor.char = none

/-- Behind the end of the text there is nothing. -/
theorem Tracks.spent_advanceStep (ht : Tracks cs taken l) (hf : l.finished = false)
    (h : l.cursor.rest = []) (hc : l.again = true → l.cursor.char = none) :
    l.advanceStep.Spent := by
  obtain ⟨he, -, -⟩ := ht.enters hf
  have hentered : l.entered.Spent := by
    unfold Lexer.entered
    cases ha : l.again with
    | true => exact ⟨h, hc ha⟩
    | false =>
      show l.advance.Spent
      rw [Spent, advance_cursor]
      simp [Cursor.advance, h]
  have hm := step_moves he
  have hstep : l.entered.step.Spent := by
    cases ha : l.entered.step.again with
    | true =>
      rw [Spent, (hm.repeats ha).1]
      exact hentered
    | false =>
      obtain ⟨hchar, hlen⟩ := hm.takes ha
      rw [hentered.1, List.length_nil, Nat.le_zero, List.length_eq_zero_iff] at hlen
      exact ⟨hlen, hchar.trans hentered.2⟩
  rw [advanceStep_eq]
  split
  · exact hstep
  · exact hstep

theorem Tracks.spent_run {fuel : Nat} (ht : Tracks cs taken l) (h : l.Spent) :
    (l.run fuel).2.Spent := by
  induction fuel generalizing l with
  | zero =>
    unfold Lexer.run
    split
    · exact h
    · split <;> exact h
  | succ fuel ih =>
    unfold Lexer.run
    split
    · exact h
    · next hr =>
      split
      · exact h
      · next hf =>
        have hf' : l.finished = false := by simpa using hf
        exact ih (ht.advanceStep hf' hr) (ht.spent_advanceStep hf' h.1 fun _ => h.2)

theorem Tracks.spent_pull (ht : Tracks cs taken l) (h : l.Spent) : l.pull.2.Spent :=
  ht.spent_run h

/-! ## Tokens that are handed out -/

/-- A start tag was seen, now that `t` was handed out. -/
def SeenWith (seen : Prop) (t : Option Token) : Prop :=
  seen ∨ ∃ x, t = some x ∧ x.kind = .tagOpen

theorem Follows.take (h : Follows r seen l l') {t : Token} {ready : List Token}
    (hr : l.buffer.ready = t :: ready) :
    Follows r (SeenWith seen (some t)) { l with buffer := { l.buffer with ready } }
      { l' with buffer := { l'.buffer with ready := ready.map r.token } } := by
  have hbuffer : ({ l.buffer with ready } : TokenBuffer).Moved r
      (l.Named (SeenWith seen (some t)) l.inUse) { l'.buffer with ready := ready.map r.token } := by
    refine { h.buffer with ready := rfl, startName := fun hor => h.buffer.startName ?_ }
    rcases hor with ((hseen | ⟨x, hx, hopen⟩) | hrest) | ⟨x, hx, hopen⟩
    · exact .inl (.inl hseen)
    · obtain rfl := Option.some.inj hx
      exact .inr ⟨t, hr ▸ List.mem_cons_self .., hopen⟩
    · exact .inl (.inr hrest)
    · exact .inr ⟨x, hr ▸ List.mem_cons_of_mem t hx, hopen⟩
  exact { h with
    buffer := hbuffer
    known := fun x hx => by cases x <;> exact h.known _ hx }

theorem run_ready {t : Token} {ready : List Token} (hr : l.buffer.ready = t :: ready)
    (fuel : Nat) : l.run fuel = (some t, { l with buffer := { l.buffer with ready } }) := by
  unfold Lexer.run
  rw [hr]

theorem run_finished (hr : l.buffer.ready = []) (hf : l.finished = true) (fuel : Nat) :
    l.run fuel = (none, l) := by
  unfold Lexer.run
  rw [hr]
  simp [hf]

theorem run_succ (hr : l.buffer.ready = []) (hf : l.finished = false) (fuel : Nat) :
    l.run (fuel + 1) = l.advanceStep.run fuel := by
  conv => lhs; unfold Lexer.run
  rw [hr]
  simp [hf]

/-- A token that is ready is handed out, and nothing at the end. -/
theorem Follows.handOut (h : Follows r seen l l') (hd : l.buffer.ready = [] → l.finished = true)
    (fuel fuel' : Nat) : (l'.run fuel').1 = (l.run fuel).1.map r.token ∧
      Follows r (SeenWith seen (l.run fuel).1) (l.run fuel).2 (l'.run fuel').2 := by
  have hready := h.buffer.ready
  cases hr : l.buffer.ready with
  | cons t ready =>
    rw [hr, List.map_cons] at hready
    rw [run_ready hr, run_ready hready]
    exact ⟨rfl, h.take hr⟩
  | nil =>
    rw [hr, List.map_nil] at hready
    rw [run_finished hr (hd hr), run_finished hready (h.finished.trans (hd hr))]
    refine ⟨rfl, h.see ?_⟩
    rintro (hseen | ⟨x, hx, -⟩)
    · exact hseen
    · exact absurd hx nofun

/-- Enough steps hand out the same token in both readings, unless the first one takes the end of its
text and the text of the second one goes on. -/
theorem Follows.run {fuel fuel' : Nat} (h : Follows r seen l l') (ht : Tracks cs taken l)
    (hle : l.potential ≤ fuel) (hle' : fuel ≤ fuel')
    (hspent : r.tail = [] ∨ ¬ (l.run fuel).2.Spent) :
    (l'.run fuel').1 = (l.run fuel).1.map r.token ∧
      Follows r (SeenWith seen (l.run fuel).1) (l.run fuel).2 (l'.run fuel').2 := by
  induction fuel generalizing l l' fuel' with
  | zero =>
    refine h.handOut (fun _ => ?_) 0 fuel'
    by_contra hf
    exact absurd (potential_pos (by simpa using hf)) (Nat.not_lt.2 hle)
  | succ fuel ih =>
    by_cases hd : l.buffer.ready = [] → l.finished = true
    · exact h.handOut hd (fuel + 1) fuel'
    · rw [Classical.not_imp, Bool.not_eq_true] at hd
      obtain ⟨hr, hf⟩ := hd
      have hr' : l'.buffer.ready = [] := by rw [h.buffer.ready, hr, List.map_nil]
      obtain ⟨hpot, -⟩ := ht.advanceStep_potential hf
      obtain ⟨fuel', rfl⟩ : ∃ n, fuel' = n + 1 := ⟨fuel' - 1, by omega⟩
      have ht' := ht.advanceStep hf hr
      rw [run_succ hr hf] at hspent ⊢
      rw [run_succ hr' (h.finished.trans hf)]
      have hc : l.again = false → r.Closes l.cursor.rest := by
        intro ha
        rcases hspent with htail | hspent
        · exact .inl htail
        · refine h.closes.resolve_left fun hrest => hspent ?_
          exact ht'.spent_run (ht.spent_advanceStep hf hrest (by simp [ha]))
      exact ih (h.advanceStep ht hf hc) ht' (by omega) (by omega) hspent

theorem Follows.pull (h : Follows r seen l l') (ht : Tracks cs taken l)
    (hspent : r.tail = [] ∨ ¬ l.pull.2.Spent) :
    l'.pull.1 = l.pull.1.map r.token ∧
      Follows r (SeenWith seen l.pull.1) l.pull.2 l'.pull.2 := by
  refine h.run ht l.potential_le ?_ hspent
  simp only [stepsLeft, h.rest, List.length_append]
  omega

end Lexer
end TemplateSyntax
