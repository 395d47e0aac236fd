import TemplateSyntax.Proofs.CommentRule
import TemplateSyntax.Proofs.LexerYields
import TemplateSyntax.Proofs.CharactersKept

/-! # From one place of a text to another

A lexer that is on its way to the next token takes one step after the other.  `ComesTo` says where it
comes to, `Faces` which text it has in front of it there, and `Lexes` puts the ways between the tokens
together that a tree builder takes.  A theorem about the lexer in some part of a text follows it from
step to step. -/

namespace TemplateSyntax

open Text (byteLength Gives)

/-! ## The character at hand -/

namespace Cursor

/-- A cursor at the end of the text has no character, and one on a character has the one that the text
gives when its line breaks are line feeds. -/
theorem Reads.cases {c : Cursor} (h : c.Reads) :
    (c.here = [] ∧ c.char = none ∧ c.rest = []) ∨
      ∃ ch, c.char = some ch ∧ Gives c.here ch c.rest := by
  cases h with
  | atEnd => exact .inl ⟨rfl, rfl, rfl⟩
  | pair rest => exact .inr ⟨_, rfl, .pair rest⟩
  | lone rest _ hrest => exact .inr ⟨_, rfl, .lone hrest⟩
  | char c rest _ hc => exact .inr ⟨_, rfl, .char rest hc⟩

/-- Moving on never changes where the text ends. -/
theorem Reads.index_add {c : Cursor} (h : c.Reads) :
    c.index + byteLength c.rest = c.start + byteLength c.here := by
  have hbreak : '\r'.utf8Size = 1 ∧ '\n'.utf8Size = 1 := ⟨rfl, rfl⟩
  cases h <;> simp only [Text.byteLength_cons, Text.byteLength_nil] <;> omega

end Cursor

namespace Lexer

variable {cs r rest : List Char} {taken ts us : List Token} {l l' e x : Lexer} {i : Nat} {ch : Char}

/-- The lexer has this text in front of it, which starts at an index.  It may have the first character
at hand already. -/
inductive Faces (l : Lexer) (i : Nat) (r : List Char) : Prop
  | next (again : l.again = false) (index : l.cursor.index = i) (rest : l.cursor.rest = r)
  | same (again : l.again = true) (reads : l.cursor.Reads) (start : l.cursor.start = i)
      (here : l.cursor.here = r)

theorem Faces.congr (h : l.Faces i r) (hcursor : l'.cursor = l.cursor) (hagain : l'.again = l.again) :
    l'.Faces i r := by
  cases h with
  | next again index rest => exact .next (hagain.trans again) (hcursor ▸ index) (hcursor ▸ rest)
  | same again reads start here =>
    exact .same (hagain.trans again) (hcursor ▸ reads) (hcursor ▸ start) (hcursor ▸ here)

/-- The lexer has the first character of the text at hand, or is at its end. -/
structure AtHand (l : Lexer) (i : Nat) (r : List Char) : Prop where
  again : l.again = false
  reads : l.cursor.Reads
  start : l.cursor.start = i
  here : l.cursor.here = r

/-- What a lexer has found wrong with comments: the text ended before them. -/
def openComments (l : Lexer) : List Diagnostic :=
  l.diagnostics.toList.filter fun d => d.cause = .eofInComment

theorem openComments_reportAt (l : Lexer) {cause : Cause} (hc : cause ≠ .eofInComment) (index : Nat) :
    (l.reportAt cause index).openComments = l.openComments := by
  simp [openComments, reportAt, Locator.diagnose, hc]

theorem openComments_report (l : Lexer) : (l.report .eofInComment).openComments =
    l.openComments ++ [l.locator.diagnose .eofInComment (l.locator.host l.cursor.start)] := by
  simp [openComments, report, reportAt, Locator.diagnose]

/-- What counts of a lexer in the middle of a text, but for the text itself: the state, the tokens, and
the comments that were open at the end of the text. -/
structure Place where
  locator : Locator
  state : LexState
  mark : Nat
  buffer : TokenBuffer
  endTagName : String
  finished : Bool
  openComments : List Diagnostic

/-- Where a lexer is. -/
def place (l : Lexer) : Place where
  locator := l.locator
  state := l.state
  mark := l.mark
  buffer := l.buffer
  endTagName := l.endTagName
  finished := l.finished
  openComments := l.openComments

theorem Told.place (h : l.Told l') : l'.place = l.place := by
  obtain ⟨ns, interpolating, log, rfl⟩ := h
  rfl

theorem Told.faces (h : l.Told l') (hf : l.Faces i r) : l'.Faces i r := by
  obtain ⟨ns, interpolating, log, rfl⟩ := h
  exact hf.congr rfl rfl

theorem inputFault?_ne {cause : Cause} (h : Cursor.inputFault? ch = some cause) :
    cause ≠ .eofInComment := by
  unfold Cursor.inputFault? at h
  repeat' split at h
  all_goals
    intro heq
    subst heq
    cases h

theorem advance_place (l : Lexer) : l.advance.place = l.place := by
  have hmove : l.moveOn.place = l.place := by
    unfold moveOn
    dsimp only
    split <;> rfl
  unfold advance
  dsimp only
  split
  · next cause hcause =>
    obtain ⟨c, -, hc⟩ := Option.bind_eq_some_iff.1 hcause
    rw [← hmove, place, place]
    exact congrArg (Place.mk _ _ _ _ _ _) (openComments_reportAt _ (inputFault?_ne hc) _)
  · exact hmove

theorem advance_again (l : Lexer) : l.advance.again = l.again := by
  unfold advance moveOn
  dsimp only
  repeat' split
  all_goals rfl

theorem entered_place (l : Lexer) : l.entered.place = l.place := by
  rw [Lexer.entered]
  split
  · rfl
  · exact l.advance_place

theorem entered_again (l : Lexer) : l.entered.again = false := by
  rw [Lexer.entered]
  split
  · rfl
  · next h => exact l.advance_again.trans (eq_false_of_ne_true h)

/-- The next step has the first character of the text in front at hand. -/
theorem Faces.entered (h : l.Faces i r) : l.entered.AtHand i r ∧ l.entered.place = l.place := by
  refine ⟨?_, l.entered_place⟩
  cases h with
  | same again reads start here =>
    rw [Lexer.entered, if_pos again]
    exact ⟨rfl, reads, start, here⟩
  | next again index rest =>
    rw [Lexer.entered, if_neg (by simp [again])]
    refine ⟨l.advance_again.trans again, ?_, ?_, ?_⟩
    · rw [advance_cursor]
      exact l.cursor.advance_reads
    · rw [advance_cursor, Cursor.advance_start, index]
    · rw [advance_cursor, Cursor.advance_here, rest]

theorem AtHand.index_add (h : e.AtHand i r) :
    e.cursor.index + byteLength e.cursor.rest = i + byteLength r := by
  rw [← h.start, ← h.here]
  exact h.reads.index_add

/-- The character at hand is the one that the text gives. -/
theorem AtHand.gives (h : e.AtHand i r) (hc : e.cursor.char = some ch) :
    Gives r ch e.cursor.rest := by
  rcases h.reads.cases with ⟨-, hnone, -⟩ | ⟨c, hsome, hgives⟩
  · cases hnone.symm.trans hc
  · rw [h.here] at hgives
    exact Option.some.inj (hsome.symm.trans hc) ▸ hgives

theorem AtHand.char_of_gives (h : e.AtHand i r) (hr : Gives r ch rest) :
    e.cursor.char = some ch ∧ e.cursor.rest = rest := by
  rcases h.reads.cases with ⟨hnil, -, -⟩ | ⟨c, hsome, hgives⟩
  · rw [h.here] at hnil
    subst hnil
    cases hr
  · rw [h.here] at hgives
    obtain ⟨rfl, hrest⟩ := hr.unique hgives
    exact ⟨hsome, hrest⟩

/-- A character that no line break starts with is at hand as it is. -/
theorem AtHand.cons (h : e.AtHand i (ch :: rest)) (hc : ch ≠ '\r') :
    e.cursor.char = some ch ∧ e.cursor.rest = rest ∧ e.cursor.index = i + ch.utf8Size := by
  obtain ⟨hchar, hrest⟩ := h.char_of_gives (.char rest hc)
  have hindex := h.index_add
  rw [hrest, Text.byteLength_cons] at hindex
  exact ⟨hchar, hrest, by omega⟩

/-- Without a character at hand the text is at its end. -/
theorem AtHand.nil (h : e.AtHand i r) (hc : e.cursor.char = none) :
    r = [] ∧ e.cursor.rest = [] ∧ e.cursor.index = i := by
  rcases h.reads.cases with ⟨hnil, -, hrest⟩ | ⟨c, hsome, -⟩
  · rw [h.here] at hnil
    have hindex := h.index_add
    rw [hrest, hnil] at hindex
    exact ⟨hnil, hrest, hindex⟩
  · cases hc.symm.trans hsome

theorem AtHand.char_nil (h : e.AtHand i []) : e.cursor.char = none := by
  cases hc : e.cursor.char with
  | none => rfl
  | some c => cases h.gives hc

/-- A step that takes the character has the text behind it in front. -/
theorem AtHand.takes (h : e.AtHand i r) (hcursor : x.cursor = e.cursor) (hagain : x.again = e.again) :
    x.Faces e.cursor.index e.cursor.rest :=
  .next (hagain.trans h.again) (congrArg Cursor.index hcursor) (congrArg Cursor.rest hcursor)

/-- A step that goes on with the character has the same text in front. -/
theorem AtHand.keeps (h : e.AtHand i r) (hcursor : x.cursor = e.cursor) (hagain : x.again = true) :
    x.Faces i r :=
  .same hagain (hcursor ▸ h.reads) (hcursor ▸ h.start) (hcursor ▸ h.here)

/-! ## Steps -/

/-- A step that does not take the end of the text. -/
theorem advanceStep_goesOn
    (h : l.entered.step.again = true ∨ l.entered.step.cursor.char ≠ none) :
    ∃ log, l.advanceStep = { l.entered.step with log } := by
  refine ⟨(l.entered.traceTo l.entered.step.state).log, ?_⟩
  rw [advanceStep_eq, if_neg]
  rcases h with h | h
  · simp [h]
  · simp [Option.isNone_iff_eq_none, h]

/-- The step that takes the end of the text. -/
theorem advanceStep_atEnd (h : l.entered.step.again = false)
    (hc : l.entered.step.cursor.char = none) :
    ∃ log, l.advanceStep = { l.entered.step.finish with log } := by
  refine ⟨(l.entered.traceTo l.entered.step.state).log, ?_⟩
  rw [advanceStep_eq, if_pos]
  simp [h, hc]

/-- A step that takes the character. -/
theorem Faces.advance_take (hf : l.Faces i r) (hg : Gives r ch rest) (hstep : l.entered.step = x)
    (hcursor : x.cursor = l.entered.cursor) (hagain : x.again = l.entered.again) :
    l.advanceStep.Faces l.entered.cursor.index rest ∧ l.advanceStep.place = x.place ∧
      l.entered.cursor.index + byteLength rest = i + byteLength r := by
  obtain ⟨hhand, -⟩ := hf.entered
  obtain ⟨hchar, hrest⟩ := hhand.char_of_gives hg
  obtain ⟨log, hlog⟩ := advanceStep_goesOn (l := l) (.inr (by rw [hstep, hcursor, hchar]; simp))
  rw [hlog, hstep, ← hrest]
  exact ⟨hhand.takes hcursor hagain, rfl, hhand.index_add⟩

/-- A step that goes on with the character. -/
theorem Faces.advance_keep (hf : l.Faces i r) (hstep : l.entered.step = x)
    (hcursor : x.cursor = l.entered.cursor) (hagain : x.again = true) :
    l.advanceStep.Faces i r ∧ l.advanceStep.place = x.place := by
  obtain ⟨hhand, -⟩ := hf.entered
  obtain ⟨log, hlog⟩ := advanceStep_goesOn (l := l) (.inl (by rw [hstep, hagain]))
  rw [hlog, hstep]
  exact ⟨hhand.keeps hcursor hagain, rfl⟩

/-- A step at the end of the text. -/
theorem Faces.advance_atEnd (hf : l.Faces i []) (hstep : l.entered.step = x)
    (hcursor : x.cursor = l.entered.cursor) (hagain : x.again = l.entered.again) :
    l.advanceStep.place = x.finish.place ∧ x.cursor.index = i := by
  obtain ⟨hhand, -⟩ := hf.entered
  obtain ⟨-, -, hindex⟩ := hhand.nil hhand.char_nil
  obtain ⟨log, hlog⟩ := advanceStep_atEnd (l := l) (by rw [hstep, hagain, hhand.again])
    (by rw [hstep, hcursor, hhand.char_nil])
  rw [hlog, hstep]
  exact ⟨rfl, by rw [hcursor, hindex]⟩

/-- A step to another state that takes a character and leaves all tokens alone. -/
theorem advance_goto {s : LexState} {m : Nat} (hf : l.Faces i (ch :: rest)) (hc : ch ≠ '\r')
    (hstep : l.entered.step = { l.entered with mark := m, state := s }) :
    l.advanceStep.Faces (i + ch.utf8Size) rest ∧
      l.advanceStep.place = { l.place with mark := m, state := s } := by
  obtain ⟨hfaces, hplace, hindex⟩ := hf.advance_take (.char rest hc) hstep rfl rfl
  rw [Text.byteLength_cons] at hindex
  have hat : l.entered.cursor.index = i + ch.utf8Size := by omega
  rw [hplace, ← hf.entered.2, ← hat]
  exact ⟨hfaces, rfl⟩

/-- The lexer comes to a place by steps, and takes each of them because no token is ready. -/
inductive ComesTo (l : Lexer) : Lexer → Prop
  | here : ComesTo l l
  | step {l' : Lexer} (h : ComesTo l l') (hr : l'.buffer.ready = []) (hf : l'.finished = false) :
    ComesTo l l'.advanceStep

namespace ComesTo

theorem trans (h : l.ComesTo l') (h' : l'.ComesTo x) : l.ComesTo x := by
  induction h' with
  | here => exact h
  | step _ hr hf ih => exact ih.step hr hf

/-- A step is the first one of several. -/
theorem cons (hr : l.buffer.ready = []) (hf : l.finished = false) (h : l.advanceStep.ComesTo x) :
    l.ComesTo x :=
  (here.step hr hf).trans h

theorem tracks (h : l.ComesTo l') (ht : l.Tracks cs taken) : l'.Tracks cs taken := by
  induction h with
  | here => exact ht
  | step _ hr hf ih => exact ih.advanceStep hf hr

theorem told_eq (h : l.ComesTo l') : l'.told = l.told := by
  induction h with
  | here => rfl
  | step _ _ _ ih => exact (advanceStep_told _).trans ih

/-- What comes next does not change on the way. -/
theorem pull (h : l.ComesTo l') (ht : l.Tracks cs taken) : l.pull = l'.pull := by
  induction h with
  | here => rfl
  | step h hr hf ih => exact ih.trans ((h.tracks ht).pull_advanceStep hr hf)

end ComesTo
/-- A token is handed out where it is the first one that is ready. -/
theorem run_comesTo {fuel : Nat} {t : Token} (h : l.run fuel = (some t, x)) :
    ∃ l' ready, l.ComesTo l' ∧ l'.buffer.ready = t :: ready ∧
      x = { l' with buffer := { l'.buffer with ready } } := by
  induction fuel generalizing l with
  | zero =>
    unfold Lexer.run at h
    split at h
    · next t' ready hr =>
      obtain ⟨ht, rfl⟩ := Prod.mk.inj h
      obtain rfl := Option.some.inj ht
      exact ⟨l, ready, .here, hr, rfl⟩
    · split at h <;> cases h
  | succ fuel ih =>
    unfold Lexer.run at h
    split at h
    · next t' ready hr =>
      obtain ⟨ht, rfl⟩ := Prod.mk.inj h
      obtain rfl := Option.some.inj ht
      exact ⟨l, ready, .here, hr, rfl⟩
    · next hr =>
      split at h
      · cases h
      · next hf =>
        obtain ⟨l', ready, hcomes, hready, hx⟩ := ih h
        exact ⟨l', ready, .cons hr (eq_false_of_ne_true hf) hcomes, hready, hx⟩

/-- The token that closes a tag stops where the lexer stands then. -/
theorem Tracks.pull_stop {t : Token} (h : l.Tracks cs taken) (hpull : l.pull = (some t, x))
    (ht : t.kind.closesTag = true) : t.extent.span.stop = x.locator.host x.cursor.index := by
  obtain ⟨l', ready, hcomes, hready, rfl⟩ := run_comesTo hpull
  obtain ⟨-, -, hlast⟩ := (hcomes.tracks h).closes ⟨t, hready ▸ List.mem_cons_self .., ht⟩
  exact ((hlast.back hready).1 ht).2

end Lexer

/-! ## Tokens -/

namespace Builder

variable {cs : List Char} {loc : Locator} {taken ts us : List Token} {b b' b'' : Builder}
  {l l' x : Lexer} {t : Token}

theorem Takes.eq_of_nil (h : b.Takes [] b') : b' = b := by
  generalize hts : ([] : List Token) = all at h
  cases h with
  | nothing => rfl
  | token => exact absurd hts.symm (List.append_ne_nil_of_right_ne_nil _ (List.cons_ne_nil _ _))

/-- The first one of the tokens that are taken. -/
theorem Takes.uncons (h : b.Takes (t :: ts) b') :
    ∃ x, b.lexer.pull = (some t, x) ∧ (b.take t x).Takes ts b' := by
  generalize hts : t :: ts = all at h
  induction h generalizing ts with
  | nothing => cases hts
  | @token front c u x h hpull ih =>
    cases front with
    | nil =>
      obtain ⟨rfl, rfl⟩ := List.cons.inj hts
      obtain rfl := h.eq_of_nil
      exact ⟨x, hpull, .nothing⟩
    | cons v front =>
      obtain ⟨rfl, rfl⟩ := List.cons.inj hts
      obtain ⟨y, hy, hrest⟩ := ih rfl
      exact ⟨y, hy, hrest.token hpull⟩

/-- Whoever takes tokens up to the end of the text takes all that can be taken. -/
theorem Takes.suffix (h : b.Takes ts b') (h' : b.Takes us b'') (hend : b''.lexer.pull.1 = none) :
    ∃ rest, us = ts ++ rest ∧ b'.Takes rest b'' := by
  induction h with
  | nothing => exact ⟨us, rfl, h'⟩
  | @token ts c t x h hpull ih =>
    obtain ⟨rest, rfl, hrest⟩ := ih
    cases rest with
    | nil =>
      rw [hrest.eq_of_nil, hpull] at hend
      cases hend
    | cons v rest =>
      obtain ⟨y, hy, hmore⟩ := hrest.uncons
      obtain ⟨hv, rfl⟩ := Prod.mk.inj (hpull.symm.trans hy)
      obtain rfl := Option.some.inj hv
      exact ⟨rest, by simp, hmore⟩

/-- A token that closes no tag leaves the lexer where it is. -/
theorem take_told (hr : Runs cs loc taken b) (hx : x.Tracks cs (taken ++ [t])) (hloc : x.locator = loc)
    (ht : t.kind.closesTag = false) : x.Told (b.take t x).lexer := by
  obtain ⟨floor, mid, m, p, -, -, -, hunits, -⟩ := hr.process hx hloc
  have hplain : ∀ tag, .startTag tag ∉ (b.assembler.process t).output := by
    intro tag htag
    have hclosing := hunits.closed tag (Array.mem_toList_iff.2 htag)
    rw [ht] at hclosing
    cases hclosing
  simp only [take, drain, Assembler.takeOutput]
  generalize hstart : ({ b with lexer := x, assembler := _ } : Builder) = start
  have hlexer : x.Told start.lexer := hstart ▸ .refl x
  refine Array.foldl_induction (fun _ (c : Builder) => x.Told c.lexer) hlexer fun i c ih => ?_
  refine (onUnit_steered ih _).2 fun tag heq => ?_
  exact hplain tag (heq ▸ Array.getElem_mem i.isLt)

/-- The builder takes some tokens, and its lexer goes on from there to a place. -/
structure Lexes (b : Builder) (ts : List Token) (b' : Builder) (l : Lexer) : Prop where
  takes : b.Takes ts b'
  comesTo : b'.lexer.ComesTo l

namespace Lexes

theorem nothing (b : Builder) : b.Lexes [] b b.lexer := ⟨.nothing, .here⟩

theorem step (h : b.Lexes ts b' l) (hr : l.buffer.ready = []) (hf : l.finished = false) :
    b.Lexes ts b' l.advanceStep :=
  ⟨h.takes, h.comesTo.step hr hf⟩

theorem goesOn (h : b.Lexes ts b' l) (hl : l.ComesTo l') : b.Lexes ts b' l' :=
  ⟨h.takes, h.comesTo.trans hl⟩

theorem trans (h : b.Lexes ts b' b'.lexer) (h' : b'.Lexes us b'' l) : b.Lexes (ts ++ us) b'' l :=
  ⟨h.takes.trans h'.takes, h'.comesTo⟩

section

variable (hr : Runs cs loc taken b) (h : b.Lexes ts b' l)
include hr h

theorem tracks : l.Tracks cs (taken ++ ts) := by
  obtain ⟨floor, m, p, -, -, hstands⟩ := (h.takes.runs hr).stands
  exact h.comesTo.tracks hstands.built.tracks

theorem locator : l.locator = loc := by
  obtain ⟨floor, m, p, -, -, hstands⟩ := (h.takes.runs hr).stands
  exact (congrArg Prod.fst h.comesTo.told_eq).trans hstands.built.locator.2

theorem pull : b'.lexer.pull = l.pull := by
  obtain ⟨floor, m, p, -, -, hstands⟩ := (h.takes.runs hr).stands
  exact h.comesTo.pull hstands.built.tracks

/-- A token that is ready is taken.  The lexer stays where it is, if no tag is closed. -/
theorem hand {ready : List Token} (hready : l.buffer.ready = t :: ready)
    (ht : t.kind.closesTag = false) : ∃ b'' l', b.Lexes (ts ++ [t]) b'' l' ∧
      Lexer.Told { l with buffer := { l.buffer with ready } } l' := by
  have hpull : b'.lexer.pull = (some t, { l with buffer := { l.buffer with ready } }) := by
    rw [h.pull hr]
    exact Lexer.run_ready hready _
  refine ⟨_, _, ⟨h.takes.token hpull, .here⟩, ?_⟩
  have hloc := h.locator hr
  exact take_told (h.takes.runs hr) ((h.tracks hr).take hready) hloc ht

/-- Some tokens that are ready are taken. -/
theorem handSome {more : List Token} (hready : l.buffer.ready = us ++ more)
    (hus : ∀ t ∈ us, t.kind.closesTag = false) : ∃ b'' l', b.Lexes (ts ++ us) b'' l' ∧
      Lexer.Told { l with buffer := { l.buffer with ready := more } } l' := by
  induction us generalizing ts b' l with
  | nil =>
    refine ⟨b', l, by rwa [List.append_nil], ?_⟩
    rw [show more = l.buffer.ready from hready.symm]
    exact .refl l
  | cons t us ih =>
    obtain ⟨b'', l', h', htold⟩ := h.hand hr hready (hus t (List.mem_cons_self ..))
    have hready' : l'.buffer.ready = us ++ more := congrArg (fun p => p.buffer.ready) htold.place
    obtain ⟨c, y, hc, hy⟩ := ih h' hready' fun t ht => hus t (List.mem_cons_of_mem _ ht)
    refine ⟨c, y, ?_, ?_⟩
    · rwa [List.append_cons]
    · obtain ⟨ns, interpolating, log, rfl⟩ := htold
      obtain ⟨ns', interpolating', log', rfl⟩ := hy
      exact ⟨ns', interpolating', log', rfl⟩

/-- All tokens that are ready are taken. -/
theorem handAll (hready : l.buffer.ready = us) (hus : ∀ t ∈ us, t.kind.closesTag = false) :
    ∃ b'' l', b.Lexes (ts ++ us) b'' l' ∧
      Lexer.Told { l with buffer := { l.buffer with ready := [] } } l' :=
  h.handSome hr (hready.trans (List.append_nil us).symm) hus

end
end Lexes
end Builder

namespace Template

variable {text : String} {o : Options} {ts : List Token} {b : Builder} {t : Token}

/-- Each token that is taken in the reading of a template is on record, a comment with the comments. -/
theorem mem_parse_of_takes (h : (startOf text o).Takes ts b) (reader : Script.Reader) (ht : t ∈ ts) :
    (t.kind.isComment = true → t ∈ (parse text o reader).comments) ∧
      (t.kind.isComment = false → t ∈ (parse text o reader).tokens) := by
  obtain ⟨all, c, x, hall⟩ := exists_takesAll text o
  obtain ⟨rest, rfl, -⟩ := h.suffix hall.takes (by rw [hall.pull])
  have hmem : t ∈ ts ++ rest := List.mem_append_left rest ht
  obtain ⟨htokens, hcomments⟩ := hall.recorded reader
  rw [← Array.mem_toList_iff, ← Array.mem_toList_iff, htokens, hcomments]
  exact ⟨fun hk => List.mem_filter.2 ⟨hmem, hk⟩, fun hk => List.mem_filter.2 ⟨hmem, by simp [hk]⟩⟩

end Template
end TemplateSyntax
