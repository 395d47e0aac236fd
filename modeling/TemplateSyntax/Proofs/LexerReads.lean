import TemplateSyntax.Proofs.LexerSteps

/-! # What a lexer reads

Each step takes up the next character, or goes on with the one at hand.  `Scanned` says how a text is
gone through so: character by character, with its line breaks as line feeds, and in some places over
plain characters that are jumped over.  What a step keeps is carried along all pulls by `Carried`,
however the lexer is led on in between, and `Walked` is carried so: the text up to where the lexer
stands is scanned. -/

namespace TemplateSyntax

open Text (byteLength From Between Gives)

/-! ## Texts that are gone through -/

namespace Text

variable {cs : List Char} {rs : List (Nat × Char)} {i : Nat}

/-- The text in front of a position is gone through.  These characters were read, each at its index; what
was jumped over in between is plain. -/
inductive Scanned (cs : List Char) : List (Nat × Char) → Nat → Prop
  | start : Scanned cs [] 0
  | read {rs : List (Nat × Char)} {i j : Nat} {c : Char} {tail rest : List Char} (h : Scanned cs rs i)
    (hi : From cs i tail) (hg : Gives tail c rest) (hj : From cs j rest) :
    Scanned cs (rs ++ [(i, c)]) j
  | jump {rs : List (Nat × Char)} {i j : Nat} {mid : List Char} (h : Scanned cs rs i)
    (hb : Between cs i mid j) (hmid : ∀ c ∈ mid, Lexer.IsPlain c) : Scanned cs rs j

/-- What was read stands in front. -/
theorem Scanned.lt (h : Scanned cs rs i) : ∀ r ∈ rs, r.1 < i := by
  induction h with
  | start => simp
  | @read rs i j c tail rest _ hi hg hj ih =>
    have hsize := hi.size
    have hsize' := hj.size
    have hlt := hg.byteLength_lt
    intro r hr
    rcases List.mem_append.1 hr with hr | hr
    · have := ih r hr
      omega
    · obtain rfl := List.mem_singleton.1 hr
      show i < j
      omega
  | jump _ hb _ ih => exact fun r hr => Nat.lt_of_lt_of_le (ih r hr) hb.le

end Text

open Text (Scanned)

namespace Lexer

variable {cs : List Char} {taken : List Token} {l x y start : Lexer} {xs front : List Lexer}
  {ls : Nat → Lexer} {P : List Lexer → Lexer → Prop}

/-! ## The steps of a pull -/

/-- The lexers in front of the steps of a run. -/
def runSteps : Nat → Lexer → List Lexer
  | fuel, l =>
    match l.buffer.ready with
    | _ :: _ => []
    | [] =>
      if l.finished then []
      else
        match fuel with
        | 0 => []
        | fuel + 1 => l :: runSteps fuel l.advanceStep

/-- The lexers in front of the steps of a pull. -/
def steps (l : Lexer) : List Lexer := l.runSteps l.stepsLeft

/-- The lexers in front of the steps of the first pulls, `n` of them. -/
def stepsBefore (ls : Nat → Lexer) (n : Nat) : List Lexer :=
  (List.range n).flatMap fun m => (ls m).steps

theorem stepsBefore_succ (ls : Nat → Lexer) (n : Nat) :
    stepsBefore ls (n + 1) = stepsBefore ls n ++ (ls n).steps := by
  simp [stepsBefore, List.range_succ]

theorem runSteps_ready {t : Token} {ready : List Token} (hr : l.buffer.ready = t :: ready)
    (fuel : Nat) : l.runSteps fuel = [] := by
  unfold runSteps
  rw [hr]

theorem runSteps_finished (hf : l.finished = true) (fuel : Nat) : l.runSteps fuel = [] := by
  unfold runSteps
  split
  · rfl
  · rw [if_pos hf]

theorem runSteps_succ (hr : l.buffer.ready = []) (hf : l.finished = false) (fuel : Nat) :
    l.runSteps (fuel + 1) = l :: l.advanceStep.runSteps fuel := by
  conv => lhs; unfold runSteps
  rw [hr]
  simp [hf]

/-! ## What is carried along -/

/-- What holds of a lexer behind some steps goes on to hold when it takes one step more, when it hands a
token out, and when it is led on. -/
structure Carried (cs : List Char) (P : List Lexer → Lexer → Prop) : Prop where
  step : ∀ {taken xs l}, Tracks cs taken l → l.finished = false → P xs l → P (xs ++ [l]) l.advanceStep
  hand : ∀ {xs l} (ready : List Token), P xs l → P xs { l with buffer := { l.buffer with ready } }
  told : ∀ {xs x y}, x.Told y → P xs x → P xs y
  entered : ∀ {xs x} {s : LexState}, IsTextState s → x.AtContent → P xs x → P xs (x.enter s)

namespace Carried

theorem led (hP : Carried cs P) (h : x.Led y) (hx : P xs x) : P xs y := by
  induction h with
  | here => exact hx
  | told _ htold ih => exact hP.told htold ih
  | entered _ hs hat ih => exact hP.entered hs hat ih

theorem run (hP : Carried cs P) {fuel : Nat} (h : Tracks cs taken l) (hl : P xs l)
    (hle : l.potential ≤ fuel) : P (xs ++ l.runSteps fuel) (l.run fuel).2 := by
  induction fuel generalizing xs l with
  | zero =>
    cases hr : l.buffer.ready with
    | cons t ready =>
      rw [runSteps_ready hr, run_ready hr, List.append_nil]
      exact hP.hand ready hl
    | nil =>
      cases hf : l.finished with
      | true =>
        rw [runSteps_finished hf, run_finished hr hf, List.append_nil]
        exact hl
      | false => exact absurd (potential_pos hf) (Nat.not_lt_of_le hle)
  | succ fuel ih =>
    cases hr : l.buffer.ready with
    | cons t ready =>
      rw [runSteps_ready hr, run_ready hr, List.append_nil]
      exact hP.hand ready hl
    | nil =>
      cases hf : l.finished with
      | true =>
        rw [runSteps_finished hf, run_finished hr hf, List.append_nil]
        exact hl
      | false =>
        have hlt := (h.advanceStep_potential hf).1
        rw [runSteps_succ hr hf, run_succ hr hf, List.append_cons]
        exact ih (h.advanceStep hf hr) (hP.step h hf hl) (by omega)

theorem pull (hP : Carried cs P) (h : Tracks cs taken l) (hl : P xs l) :
    P (xs ++ l.steps) l.pull.2 :=
  hP.run h hl (potential_le _)

/-- What is carried along holds in front of each pull. -/
theorem pulls (hP : Carried cs P) (h : PullsFrom start ls) (ht : Tracks cs [] start)
    (hstart : P [] start) (n : Nat) :
    (∃ taken, Tracks cs taken (ls n)) ∧ P (stepsBefore ls n) (ls n) := by
  induction n with
  | zero => exact ⟨⟨[], h.first.tracks ht⟩, hP.led h.first hstart⟩
  | succ n ih =>
    obtain ⟨⟨taken, htracks⟩, hl⟩ := ih
    have hnext := h.next n
    refine ⟨?_, ?_⟩
    · have hpull := htracks.pull
      generalize (ls n).pull = handed at hpull hnext
      cases hpull with
      | token ht' _ _ => exact ⟨_, hnext.tracks ht'⟩
      | ended ht' _ _ => exact ⟨_, hnext.tracks ht'⟩
    · rw [stepsBefore_succ]
      exact hP.led hnext (hP.pull htracks hl)

end Carried

/-! ## Reading -/

/-- The character that the next step takes up, unless it goes on with the one at hand or the text is at its
end.  The step reads it at an index. -/
def read? (l : Lexer) : Option (Nat × Char) :=
  if l.again then none else l.cursor.advance.char.map (l.cursor.index, ·)

/-- The characters that are read in some steps. -/
def readBy (xs : List Lexer) : List (Nat × Char) := xs.filterMap read?

theorem readBy_concat (xs : List Lexer) (l : Lexer) :
    readBy (xs ++ [l]) = readBy xs ++ l.read?.toList := by
  rw [readBy, List.filterMap_append]
  cases h : l.read? <;> simp [h, readBy]

theorem index_of_mem_read? {r : Nat × Char} (h : r ∈ l.read?) : r.1 = l.upcoming := by
  unfold read? at h
  split at h
  · cases h
  · next ha =>
    obtain ⟨c, -, rfl⟩ := Option.map_eq_some_iff.1 h
    rw [upcoming, if_neg ha]

theorem advanceStep_cursor (l : Lexer) : l.advanceStep.cursor = l.entered.step.cursor := by
  rw [advanceStep_eq]
  split <;> rfl

/-- When a step takes up a character, that is read. -/
theorem Tracks.scanned_entered {rs : List (Nat × Char)} (h : Tracks cs taken l)
    (hf : l.finished = false) (hs : Scanned cs rs l.cursor.index) :
    Scanned cs (rs ++ l.read?.toList) l.entered.cursor.index := by
  have hon := (h.enters hf).1.steady.on
  by_cases ha : l.again = true
  · rw [entered, if_pos ha, read?, if_pos ha]
    simpa using hs
  · have hcursor : l.entered.cursor = l.cursor.advance := by rw [entered, if_neg ha, advance_cursor]
    rw [hcursor] at hon ⊢
    rw [read?, if_neg ha]
    have hhere := hon.here
    rw [Cursor.advance_start] at hhere
    rcases hon.reads.cases with ⟨-, hnone, -⟩ | ⟨c, hsome, hgives⟩
    · obtain ⟨hstart, hindex, -⟩ := hon.eof hnone
      rw [Cursor.advance_start] at hstart
      rw [hnone, hindex, ← hstart]
      simpa using hs
    · rw [hsome]
      exact .read hs hhere hgives hon.next

/-- At a step behind the steps `front`, the text is gone through up to the character at hand, and the
step moves the cursor only over plain characters. -/
structure StepAt (cs : List Char) (front : List Lexer) (x : Lexer) : Prop where
  scanned : Scanned cs ((readBy front).filter fun r => r.1 < x.entered.cursor.start)
    x.entered.cursor.start
  jumps : Jumps cs x.entered.cursor x.advanceStep.cursor

/-- The text is gone through up to where the lexer stands behind the steps `xs`, and at each of them it
was gone through up to the character at hand. -/
structure Walked (cs : List Char) (xs : List Lexer) (l : Lexer) : Prop where
  scanned : Scanned cs (readBy xs) l.cursor.index
  upcoming : l.finished = false →
    Scanned cs ((readBy xs).filter fun r => r.1 < l.upcoming) l.upcoming
  ended : l.finished = true → l.cursor.index = byteLength cs
  steps : ∀ front x, front ++ [x] <+: xs → StepAt cs front x

namespace Walked

/-- Where nothing but the tokens, the log and what the lexer is told changes, it stands where it stood. -/
theorem congr (hw : Walked cs xs l) (hcursor : y.cursor = l.cursor) (hagain : y.again = l.again)
    (hfinished : y.finished = l.finished) : Walked cs xs y := by
  have hup : y.upcoming = l.upcoming := by rw [Lexer.upcoming, Lexer.upcoming, hcursor, hagain]
  refine ⟨hcursor ▸ hw.scanned, fun hf => ?_, fun hf => ?_, hw.steps⟩
  · rw [hup]
    exact hw.upcoming (hfinished ▸ hf)
  · rw [hcursor]
    exact hw.ended (hfinished ▸ hf)

/-- The step that takes the end of the text leaves the cursor there. -/
theorem ended_advanceStep (h : Tracks cs taken l) (hf : l.finished = false)
    (hf' : l.advanceStep.finished = true) : l.advanceStep.cursor.index = byteLength cs := by
  have he := (h.enters hf).1
  have hrunning := (step_sound he).running
  obtain ⟨mid, hmid, -⟩ := step_jumps he
  have hend : l.entered.step.again = false ∧ l.entered.step.cursor.char = none := by
    by_contra hno
    have hgoes : l.entered.step.again = true ∨ l.entered.step.cursor.char ≠ none := by
      by_cases ha : l.entered.step.again = true
      · exact .inl ha
      · exact .inr fun hc => hno ⟨eq_false_of_ne_true ha, hc⟩
    obtain ⟨log, hlog⟩ := advanceStep_goesOn hgoes
    rw [hlog] at hf'
    exact absurd (hrunning.symm.trans hf') Bool.false_ne_true
  obtain ⟨ha, hc⟩ := hend
  rw [((step_moves he).takes ha).1] at hc
  rw [advanceStep_cursor]
  exact Nat.le_antisymm hmid.le_size ((he.steady.on.eof hc).2.1 ▸ hmid.le)

/-- One more step is taken. -/
theorem advanceStep (hw : Walked cs xs l) (h : Tracks cs taken l) (hf : l.finished = false) :
    Walked cs (xs ++ [l]) l.advanceStep := by
  obtain ⟨mid, hmid, hplain⟩ := step_jumps (h.enters hf).1
  rw [← advanceStep_cursor] at hmid
  have hscanned : Scanned cs (readBy (xs ++ [l])) l.advanceStep.cursor.index := by
    rw [readBy_concat]
    exact .jump (h.scanned_entered hf hw.scanned) hmid hplain
  have hread : (readBy (xs ++ [l])).filter (fun r => r.1 < l.upcoming) =
      (readBy xs).filter (fun r => r.1 < l.upcoming) := by
    rw [readBy_concat, List.filter_append, List.append_right_eq_self, List.filter_eq_nil_iff]
    intro r hr
    rw [index_of_mem_read? (Option.mem_toList.1 hr)]
    simp
  refine ⟨hscanned, fun hf' => ?_, ended_advanceStep h hf, fun front x hx => ?_⟩
  · cases ha : l.advanceStep.again with
    | true =>
      rw [(h.advanceStep_repeats hf ha).1, hread]
      exact hw.upcoming hf
    | false =>
      have hup : l.advanceStep.upcoming = l.advanceStep.cursor.index := by
        rw [Lexer.upcoming, if_neg (by simp [ha])]
      rw [hup, List.filter_eq_self.2 fun r hr => by simpa using hscanned.lt r hr]
      exact hscanned
  · rcases List.prefix_concat_iff.1 hx with hx | hx
    · obtain ⟨rfl, hlast⟩ := List.append_inj' hx rfl
      obtain rfl := List.singleton_inj.1 hlast
      exact ⟨x.entered_start ▸ hw.upcoming hf, mid, hmid, hplain⟩
    · exact hw.steps front x hx

theorem ofChars (cs : List Char) (locator : Locator) (tracing : Bool) :
    Walked cs [] (Lexer.ofChars cs locator tracing) := by
  refine ⟨.start, fun _ => .start, fun hf => absurd hf Bool.false_ne_true,
    fun front x hx => ?_⟩
  exact absurd (List.prefix_nil.1 hx) (by simp)

theorem carried (cs : List Char) : Carried cs (Walked cs) where
  step h hf hw := hw.advanceStep h hf
  hand _ hw := hw.congr rfl rfl rfl
  told htold hw := by
    obtain ⟨ns, interpolating, log, rfl⟩ := htold
    exact hw.congr rfl rfl rfl
  entered _ _ hw := by
    rw [enter_eq]
    exact hw.congr rfl rfl rfl

end Walked

end Lexer

namespace Template

variable (text : String) (o : Options)

/-- The tree builder is one who leads the lexer of a template on. -/
theorem pullsFrom_startOf : Lexer.PullsFrom (startOf text o).lexer
    (fun n => (Builder.afterPull^[n] (startOf text o)).lexer) := by
  have hstart : Builder.Continues text.toList (locatorOf text o) (startOf text o) :=
    .runs (runs_startOf text o)
  refine ⟨.here, fun n => ?_⟩
  rw [Function.iterate_succ_apply']
  exact (hstart.afterPulls n).afterPull.1

/-- What is carried along holds of the lexer behind the outline, which some steps have come to. -/
theorem exists_carried : ∃ xs, ∀ P, Lexer.Carried text.toList P → P [] (startOf text o).lexer →
    P xs (builderOf text o).lexer := by
  obtain ⟨ts, b, x, hall⟩ := exists_takesAll text o
  refine ⟨Lexer.stepsBefore (fun n => (Builder.afterPull^[n] (startOf text o)).lexer) (ts.length + 1),
    fun P hP hstart => ?_⟩
  obtain ⟨⟨taken, htracks⟩, hlast⟩ := hP.pulls (pullsFrom_startOf text o)
    (Lexer.tracks_start text.toList o.origin o.tracing) hstart ts.length
  have hended := hP.pull htracks hlast
  have hhanded := htracks.pull
  rw [← Lexer.stepsBefore_succ] at hended
  rw [← hall.takes.afterPulls, hall.pull] at hended hhanded
  cases hhanded with
  | ended _ hf hr =>
    have hled : x.Led (b.atEnd x).lexer :=
      (@Builder.atEnd_led text.toList (locatorOf text o) b x hf hr).1
    rw [hall.builderOf]
    exact hP.told (Builder.closeInnermost_told (.refl _) _) (hP.led hled hended)

end Template
end TemplateSyntax
