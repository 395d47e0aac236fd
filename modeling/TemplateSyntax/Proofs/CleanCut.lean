import TemplateSyntax.Proofs.Fresh
import TemplateSyntax.Proofs.LexerRecent
import TemplateSyntax.Proofs.OutlineReports
import TemplateSyntax.Proofs.Steering

/-! # Behind a tag at the end of a text

Where the last byte of a text ends a tag, and no element is open behind that tag, nothing is left over
in the lexer, the assembler or the tree builder: they are as they are in front of a text, but for
what they have on record. -/

namespace TemplateSyntax

open Text (byteLength From Between)

variable {cs : List Char} {l : Locator} {taken ts : List Token} {b b' : Builder} {t : Token}
  {x : Lexer}

/-! ## The assembler -/

/-- At the end of a tag its unit is put out, and nothing else. -/
theorem InTag.tagClose_idle {closing : Prop} {lo p : Nat} {a : Assembler}
    (h : InTag closing taken lo a p) (ho : a.output = #[]) (t : Token) (selfClosing : Bool) :
    ∃ u, (a.tagClose t selfClosing).output = #[u] ∧
      ({ a.tagClose t selfClosing with output := #[] } : Assembler).Idle := by
  have hcommit : ∀ (a' : Assembler) (v : OpenUnit), a'.current = some v → a'.opening = none →
      a'.inside = #[] → a'.output = #[] →
      ∃ u, a'.commit.output = #[u] ∧ ({ a'.commit with output := #[] } : Assembler).Idle := by
    intro a' v hcurrent hopening hinside houtput
    have hemit : a'.commit =
        { ({ a' with current := none } : Assembler).emit v.close with attributeOpen := false } := by
      rw [Assembler.commit_of_opening hopening, Assembler.emitCurrent, hcurrent]
    rw [hemit]
    refine ⟨v.close, ?_, rfl, rfl, hopening, hinside, rfl⟩
    show a'.output.push v.close = #[v.close]
    rw [houtput]
    rfl
  unfold Assembler.tagClose
  dsimp only
  rcases h.cases with ⟨tag, hc, -⟩ | ⟨tag, hc⟩
  · rw [show (a.keep t).current = _ from hc]
    exact hcommit _ _ rfl h.opening h.inside ho
  · rw [show (a.keep t).current = _ from hc]
    dsimp only
    split
    · exact hcommit _ _ rfl h.opening h.inside ho
    · exact hcommit _ _ rfl h.opening h.inside ho

/-- So it is when a builder takes the token that ends a tag. -/
theorem Runs.process_idle (h : Runs cs l taken b) (hx : x.Tracks cs (taken ++ [t]))
    (hloc : x.locator = l) (hk : t.kind.closesTag = true) :
    ∃ u, (b.assembler.process t).output = #[u] ∧
      ({ b.assembler.process t with output := #[] } : Assembler).Idle := by
  obtain ⟨floor, m, p, hstream, hasm, -⟩ := h.stands
  obtain ⟨m', p', hstream'⟩ := hx.stream
  rw [hloc] at hstream'
  obtain ⟨m₀, p₀, pt, h₀, hlexed, rfl⟩ := hstream'.snoc_inv
  obtain ⟨rfl, rfl⟩ := h₀.unique hstream
  have hkind : pt.kind = .tagClose ∨ pt.kind = .selfClosingTagClose := by
    have hk' : pt.kind.closesTag = true := hk
    cases hp : pt.kind <;> simp_all [TokenKind.closesTag]
  have hafter := hlexed.after
  have hmode : m₀ = .tag := by
    rcases hkind with hp | hp <;> rw [hp] at hafter <;> cases m₀ <;>
      simp [Mode.after] at hafter ⊢
  subst hmode
  have hin : InTag False taken floor b.assembler (l.host p₀) := hasm
  have hprocess : ∃ selfClosing, b.assembler.process (l.token pt p') =
      b.assembler.tagClose (l.token pt p') selfClosing := by
    unfold Assembler.process
    rcases hkind with hp | hp
    · exact ⟨false, by rw [show (l.token pt p').kind = _ from hp]⟩
    · exact ⟨true, by rw [show (l.token pt p').kind = _ from hp]⟩
  obtain ⟨selfClosing, heq⟩ := hprocess
  rw [heq]
  exact hin.tagClose_idle h.output _ _

/-- Behind a tag content comes next, and all text in front of it was read. -/
theorem Lexer.BehindTag.builds (h : x.BehindTag) (hx : x.Tracks cs taken) (hf : x.finished = false) :
    From cs x.cursor.index x.cursor.rest ∧
      Builds cs x.locator x.HasGap taken x.buffer .content x.cursor.index := by
  obtain ⟨hfrom, -, hstage⟩ := hx.moves hf h.again
  rw [h.state] at hstage
  exact ⟨hfrom, hstage.resolve_right fun hhere => Bool.false_ne_true hhere.1⟩

/-! ## Reports of the lexer -/

theorem Lexer.Recent.steered {x y : Lexer} (h : x.Recent cs) (hy : x.Steered y) : y.Recent cs := by
  cases hy with
  | told hy =>
    obtain ⟨ns, interpolating, log, rfl⟩ := hy
    exact h.congr rfl rfl rfl rfl
  | entered hy hs =>
    obtain ⟨ns, interpolating, log, rfl⟩ := hy
    rw [Lexer.enter_eq]
    exact h.congr rfl rfl rfl rfl

namespace Builder

theorem Takes.recent (h : Takes b ts b') (hr : Runs cs l taken b) (hb : b.lexer.Recent cs) :
    b'.lexer.Recent cs := by
  induction h with
  | nothing => exact hb
  | token h hpull ih =>
    obtain ⟨floor, m, p, -, -, hstands⟩ := (h.runs hr).stands
    have hrecent := Lexer.Recent.pull ih hstands.built.tracks
    rw [hpull] at hrecent
    exact drain_lexer (fun hs hx => hx.steered hs) hrecent

/-! ## The cut -/

/-- What holds of a builder behind a whole text that ends with a tag and leaves nothing open. -/
structure Clean (cs : List Char) (b : Builder) : Prop extends Fresh [] (byteLength cs) b where
  char : b.lexer.cursor.char = some '>'
  last : Between cs b.lexer.cursor.start ['>'] (byteLength cs)
  reports : b.lexer.UpTo b.lexer.cursor.start

/-- The tag at the end of the text is taken, and leaves no element open. -/
theorem Clean.ofTake (hr : Runs cs l taken b) (hs : b.Steers) (hrecent : b.lexer.Recent cs)
    (hpull : b.lexer.pull = (some t, x)) (hk : t.kind.closesTag = true)
    (hstop : t.extent.span.stop = l.host (byteLength cs)) (ho : (b.take t x).opened = []) :
    (b.take t x).Clean cs := by
  obtain ⟨floor, m, p, -, -, hstands⟩ := hr.stands
  have hup := hrecent.pull hstands.built.tracks
  rw [hpull] at hup
  have hsteers := hs.take hpull
  obtain ⟨hns, hverbatim, hinterpolating⟩ := hsteers.of_opened_nil ho
  cases hr.next with
  | ended hpull' _ _ _ => exact absurd (hpull.symm.trans hpull') (by simp)
  | token hpull' hx hloc hruns hlt hc =>
    obtain ⟨ht, rfl⟩ := Prod.mk.inj (hpull.symm.trans hpull')
    obtain rfl := Option.some.inj ht
    obtain ⟨hready, hfinished, hbehind, -⟩ := hc hk
    obtain ⟨u, hunit, hidle⟩ := hr.process_idle hx hloc hk
    -- the builder behind the one unit
    obtain ⟨b₁, hlexer, hassembler, htake⟩ : ∃ b₁ : Builder, b₁.lexer = x ∧
        b₁.assembler.Idle ∧ b.take t x = b₁.onUnit u := by
      refine ⟨{ b with lexer := x, assembler := { b.assembler.process t with output := #[] } }, rfl,
        hidle, ?_⟩
      simp only [Builder.take, Builder.drain, Assembler.takeOutput, hunit]
      rfl
    rw [htake] at ho hns hinterpolating hverbatim ⊢
    have htold := onUnit_told u ho
    rw [hlexer] at htold
    have hasm : (b₁.onUnit u).assembler.Idle := (onUnit_assembler b₁ u).symm ▸ hassembler
    generalize b₁.onUnit u = b₂ at ho hns hinterpolating hverbatim htold hasm ⊢
    obtain ⟨ns, interpolating, log, htold⟩ := htold
    -- the tokens reach up to the end of the text, and so does the reading position
    obtain ⟨hfrom, hbuilds⟩ := hbehind.builds hx hfinished
    have hindex : x.cursor.index = byteLength cs := by
      obtain ⟨p', hle, hstream⟩ := hbuilds.idle hbehind.idle
      rw [hready, List.append_nil, hloc] at hstream
      obtain ⟨m₀, p₀, pt, -, -, rfl⟩ := hstream.snoc_inv
      have hend : p' = byteLength cs := Nat.add_left_cancel hstop
      have hsize := hfrom.le_size
      omega
    have hrest : x.cursor.rest = [] := by
      have hsize := hfrom.size
      rw [hindex] at hsize
      exact Text.byteLength_eq_zero.1 (by omega)
    obtain ⟨hlast, hreports⟩ := hup.behind hbehind.again hbehind.char
    rw [htold] at hns hinterpolating
    exact {
      state := htold ▸ hbehind.state
      again := htold ▸ hbehind.again
      finished := htold ▸ hfinished
      rest := htold ▸ hrest
      index := htold ▸ hindex
      char := htold ▸ hbehind.char
      last := by
        rw [hindex] at hlast
        rw [htold]
        exact hlast
      ready := htold ▸ hready
      idle := htold ▸ hbehind.idle
      notHeld := htold ▸ hbuilds.notHeld
      reports := by
        rw [htold]
        exact hreports
      ns := htold ▸ hns
      interpolating := htold ▸ hinterpolating
      assembler := hasm
      opened := ho
      verbatim := hverbatim }

/-- The end of the text comes next, and there is nothing to do. -/
theorem Fresh.pull {i : Nat} (h : b.Fresh [] i) : ∃ x, b.lexer.pull = (none, x) ∧
    x.gaps = b.lexer.gaps ∧ x.diagnostics = b.lexer.diagnostics := by
  have hentered : b.lexer.entered = { b.lexer with
      cursor := ⟨[], b.lexer.cursor.index, [], b.lexer.cursor.index, none⟩ } := by
    have hcursor : b.lexer.cursor.advance =
        ⟨[], b.lexer.cursor.index, [], b.lexer.cursor.index, none⟩ := by
      rw [Cursor.advance, h.rest]
    have hdropped : b.lexer.cursor.droppedLineFeed? = none := by
      rw [Cursor.droppedLineFeed?, h.rest]
    rw [Lexer.entered, if_neg (by simp [h.again]), Lexer.advance, Lexer.moveOn, hdropped, hcursor]
    rfl
  have hstep : b.lexer.entered.step = b.lexer.entered.goto .data := by
    rw [hentered, Lexer.step]
    simp only [h.state]
    rfl
  have hdone : b.lexer.advanceStep.finished = true ∧ b.lexer.advanceStep.buffer.ready = [] ∧
      b.lexer.advanceStep.gaps = b.lexer.gaps ∧
      b.lexer.advanceStep.diagnostics = b.lexer.diagnostics := by
    rw [Lexer.advanceStep_eq, hstep, hentered,
      if_pos (by simp [Lexer.goto, h.again])]
    refine ⟨rfl, ?_, rfl, rfl⟩
    simp only [Lexer.finish, Lexer.goto, TokenBuffer.commitHeldBack, h.notHeld,
      TokenBuffer.commitCurrent, h.idle, h.ready]
  refine ⟨b.lexer.advanceStep, ?_, hdone.2.2⟩
  have hsteps : b.lexer.stepsLeft = 7 + 1 := by rw [Lexer.stepsLeft, h.rest]; rfl
  rw [Lexer.pull, hsteps, Lexer.run_succ h.ready h.finished, Lexer.run_finished hdone.2.1 hdone.1]

/-- Then the builder has come to its end as well. -/
theorem Fresh.atEnd {i : Nat} (h : b.Fresh [] i) (x : Lexer) :
    (b.atEnd x).closeAll = { b with lexer := x } := by
  have hcommit : b.assembler.commit = b.assembler := by
    have hcurrent : b.assembler.emitCurrent = b.assembler := by
      rw [Assembler.emitCurrent, h.assembler.current]
    rw [Assembler.commit_of_opening h.assembler.opening, hcurrent, ← h.assembler.attributeOpen]
  have hdrain : b.atEnd x = { b with lexer := x } := by
    have houtput : ({ b.assembler with output := #[] } : Assembler) = b.assembler := by
      rw [← h.assembler.output]
    simp only [Builder.atEnd, Builder.drain, Assembler.takeOutput, hcommit, h.assembler.output,
      houtput]
    rfl
  rw [hdrain, Builder.closeAll]
  exact closeInnermost_nil (b := { b with lexer := x }) h.opened _

/-- A run goes on from any builder that it comes through. -/
theorem Takes.run {fuel : Nat} (h : Takes b ts b') (hr : Runs cs l taken b)
    (hfuel : b.lexer.tokensLeft < fuel) :
    ∃ fuel', b'.lexer.tokensLeft < fuel' ∧ Builder.run fuel b = Builder.run fuel' b' := by
  induction h with
  | nothing => exact ⟨fuel, hfuel, rfl⟩
  | token h hpull ih =>
    obtain ⟨fuel', hlt, hrun⟩ := ih
    obtain ⟨fuel', rfl⟩ : ∃ n, fuel' = n + 1 := ⟨fuel' - 1, by omega⟩
    cases (h.runs hr).next with
    | ended hpull' _ _ _ => exact absurd (hpull.symm.trans hpull') (by simp)
    | token hpull' hx hloc hruns hleft hc =>
      obtain ⟨ht, rfl⟩ := Prod.mk.inj (hpull.symm.trans hpull')
      obtain rfl := Option.some.inj ht
      exact ⟨fuel', by omega, hrun.trans (Builder.run_token hpull)⟩

/-- The builder behind `count` tokens more, as far as there are so many. -/
def taking : Nat → Builder → Builder
  | 0, b => b
  | count + 1, b =>
    match b.lexer.pull with
    | (some t, x) => (b.take t x).taking count
    | (none, _) => b

theorem takes_taking (b : Builder) (count : Nat) : ∃ ts, b.Takes ts (b.taking count) := by
  induction count generalizing b with
  | zero => exact ⟨[], .nothing⟩
  | succ count ih =>
    unfold taking
    split
    · next t x hpull =>
      obtain ⟨ts, h⟩ := ih (b.take t x)
      exact ⟨t :: ts, .cons hpull h⟩
    · exact ⟨[], .nothing⟩

end Builder

namespace Template

variable (text : String) (o : Options)

/-- The last byte of the text ends a tag, and behind that tag no element is open. -/
def EndsClosed : Prop :=
  ∃ ts b t x, (startOf text o).Takes ts b ∧ b.lexer.pull = (some t, x) ∧
    t.kind.closesTag = true ∧
    t.extent.span.stop = (locatorOf text o).host (byteLength text.toList) ∧
    (b.take t x).opened = []

/-- Behind `count` tokens comes one that ends a tag, at the end of the text, and leaves no element open. -/
def closesBehind (count : Nat) : Bool :=
  let b := (startOf text o).taking count
  match b.lexer.pull with
  | (some t, x) => t.kind.closesTag &&
    t.extent.span.stop == (locatorOf text o).host (byteLength text.toList) &&
    (b.take t x).opened.isEmpty
  | (none, _) => false

variable {text o}

theorem endsClosed_of_closesBehind (count : Nat) (h : closesBehind text o count = true) :
    EndsClosed text o := by
  obtain ⟨ts, htakes⟩ := (startOf text o).takes_taking count
  unfold closesBehind at h
  dsimp only at h
  split at h
  · next t x hpull =>
    simp only [Bool.and_eq_true, beq_iff_eq, List.isEmpty_iff] at h
    exact ⟨ts, _, t, x, htakes, hpull, h.1.1, h.1.2, h.2⟩
  · exact absurd h Bool.false_ne_true

/-- The outline is the builder behind the last tag, with its root in its place. -/
theorem builderOf_clean {ts : List Token} {c : Builder} (ht : (startOf text o).Takes ts c)
    (hc : c.Clean text.toList) : ∃ x, c.lexer.pull = (none, x) ∧ x.gaps = c.lexer.gaps ∧
      x.diagnostics = c.lexer.diagnostics ∧
      builderOf text o = ({ c with lexer := x } : Builder).placeRoot := by
  have hfuel := Builder.tokensLeft_ofChars text.toList o.origin o.tracing
  obtain ⟨fuel, hlt, hrun⟩ := ht.run (runs_startOf text o) hfuel
  obtain ⟨fuel, rfl⟩ : ∃ n, fuel = n + 1 := ⟨fuel - 1, by omega⟩
  obtain ⟨x, hpull, hgaps, hdiagnostics⟩ := hc.pull
  refine ⟨x, hpull, hgaps, hdiagnostics, ?_⟩
  rw [← hc.atEnd x, ← Builder.run_atEnd hpull, ← hrun]
  rfl

/-- There is a builder behind the last tag. -/
theorem EndsClosed.exists_clean (h : EndsClosed text o) :
    ∃ ts t c, (startOf text o).Takes (ts ++ [t]) c ∧ t.kind.closesTag = true ∧
      t.extent.span.stop = (locatorOf text o).host (byteLength text.toList) ∧
      c.Clean text.toList := by
  obtain ⟨ts, b, t, x, htakes, hpull, hk, hstop, ho⟩ := h
  refine ⟨ts, t, b.take t x, htakes.token hpull, hk, hstop, ?_⟩
  have hruns := runs_startOf text o
  exact .ofTake (htakes.runs hruns) (htakes.steers (Builder.steers_ofChars _ _ _))
    (htakes.recent hruns (Lexer.recent_ofChars _ _ _)) hpull hk hstop ho

end Template
end TemplateSyntax
