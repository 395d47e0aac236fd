import Mathlib.Data.Nat.Find
import TemplateSyntax.Proofs.Lexing

/-! # The steps of a lexer

The steps of one pull have one character after the other at hand, or the same one again in another
state.  A pull takes a step only when no token is ready, and whoever pulls may tell the lexer between two
pulls what counts where it is.  `Counted` carries along how often each character was at hand: the steps
that may still go on with the one that is next, and the ones that were taken with it, are four together. -/

namespace TemplateSyntax
namespace Lexer

variable {cs : List Char} {taken : List Token} {l x y : Lexer} {hs : List Lexer} {n i : Nat}

/-! ## What is at hand in a pull -/

/-- The lexers as the steps of a run take them up, with a character or the end of the text at hand. -/
def runHands : Nat → Lexer → List Lexer
  | fuel, l =>
    match l.buffer.ready with
    | _ :: _ => []
    | [] =>
      if l.finished then []
      else
        match fuel with
        | 0 => []
        | fuel + 1 => l.entered :: runHands fuel l.advanceStep

/-- The lexers as the steps of a pull take them up. -/
def hands (l : Lexer) : List Lexer := l.runHands l.stepsLeft

/-- The first token that is ready, if there is one, with the lexer that it is taken from. -/
def handOut (l : Lexer) : Option Token × Lexer :=
  match l.buffer.ready with
  | t :: ready => (some t, { l with buffer := { l.buffer with ready } })
  | [] => (none, l)

theorem runHands_ready {t : Token} {ready : List Token} (hr : l.buffer.ready = t :: ready)
    (fuel : Nat) : l.runHands fuel = [] := by
  unfold runHands
  rw [hr]

theorem runHands_finished (hf : l.finished = true) (fuel : Nat) : l.runHands fuel = [] := by
  unfold runHands
  split
  · rfl
  · rw [if_pos hf]

theorem runHands_succ (hr : l.buffer.ready = []) (hf : l.finished = false) (fuel : Nat) :
    l.runHands (fuel + 1) = l.entered :: l.advanceStep.runHands fuel := by
  conv => lhs; unfold runHands
  rw [hr]
  simp [hf]

/-- How many steps of a run had the character at an index at hand. -/
def handled (i : Nat) (hs : List Lexer) : Nat := hs.countP fun e => e.cursor.start == i

theorem handled_concat (i : Nat) (hs : List Lexer) (e : Lexer) :
    handled i (hs ++ [e]) = handled i hs + if e.cursor.start = i then 1 else 0 := by
  simp [handled, List.countP_append, List.countP_singleton]

/-- What is behind all characters that were at hand was not at hand. -/
theorem handled_of_lt (h : ∀ e ∈ hs, e.cursor.start < i) : handled i hs = 0 := by
  refine List.countP_eq_zero.2 fun e he => ?_
  have hlt := h e he
  simpa using Nat.ne_of_lt hlt

/-! ## One step -/

/-- A character that is neither part of a line break nor wrong wherever it stands. -/
structure IsPlain (c : Char) : Prop where
  notFeed : c ≠ '\n'
  notReturn : c ≠ '\r'
  noFault : Cursor.inputFault? c = none

instance (c : Char) : Decidable (IsPlain c) :=
  decidable_of_iff (c ≠ '\n' ∧ c ≠ '\r' ∧ Cursor.inputFault? c = none)
    ⟨fun ⟨hn, hr, hf⟩ => ⟨hn, hr, hf⟩, fun h => ⟨h.notFeed, h.notReturn, h.noFault⟩⟩

theorem isPlain_of_all {s : List Char} (h : s.all (fun c => decide (IsPlain c)) = true) :
    ∀ c ∈ s, IsPlain c :=
  fun c hc => of_decide_eq_true (List.all_eq_true.1 h c hc)

theorem isPlain_of_isReferenceChar {c : Char} (h : isReferenceChar c = true) : IsPlain c := by
  have hbounds : 0x20 < c.toNat ∧ c.toNat < 0x7f := by
    simp only [isReferenceChar, Bool.or_eq_true, beq_iff_eq] at h
    rcases h with ((rfl | rfl) | rfl) | h
    · decide
    · decide
    · decide
    · rcases isAlphanum_iff.1 h with (h | h) | h
      all_goals
        exact ⟨Nat.lt_of_lt_of_le (by decide) h.1, Nat.lt_of_le_of_lt h.2 (by decide)⟩
  refine ⟨(isReferenceChar_plain h).1, (isReferenceChar_plain h).2.1, ?_⟩
  rw [Cursor.inputFault?, if_neg (by omega), if_neg, if_neg]
  · simp only [CharClass.isNoncharacter, Bool.or_eq_true, Bool.and_eq_true, decide_eq_true_eq,
      beq_iff_eq]
    omega
  · simp only [CharClass.isDisallowedControl, CharClass.isControl, Bool.and_eq_true, Bool.or_eq_true,
      decide_eq_true_eq]
    omega

/-- Between the positions of two cursors there are plain characters only. -/
def Jumps (cs : List Char) (c c' : Cursor) : Prop :=
  ∃ mid, Text.Between cs c.index mid c'.index ∧ ∀ d ∈ mid, IsPlain d

theorem jumps_refl (h : Enters cs taken l l.state) : Jumps cs l.cursor l.cursor :=
  ⟨[], h.steady.on.next.between_nil, by simp⟩

/-- Going on behind plain characters of one byte each that start with the one at hand. -/
theorem skip_jumps (h : Enters cs taken l l.state) {raw tail : List Char} {c : Char}
    (hh : l.cursor.here = (c :: raw) ++ tail) (hplain : ∀ d ∈ c :: raw, IsPlain d)
    (hsize : Text.byteLength (c :: raw) = (c :: raw).length) :
    Jumps cs l.cursor (l.cursor.skip (c :: raw).length) := by
  have hc := hplain c (List.mem_cons_self ..)
  have hon := h.steady.on
  obtain ⟨hhere, hindex, -⟩ := hon.plain (hon.char_of_here hh hc.notReturn) hc.notFeed
  have hrest : l.cursor.rest = raw ++ tail := (List.cons.inj (hhere.symm.trans hh)).2
  have hnext := hon.next
  rw [hrest] at hnext
  refine ⟨raw, ⟨?_, hnext.between.2⟩, fun d hd => hplain d (List.mem_cons_of_mem c hd)⟩
  show l.cursor.start + (c :: raw).length = _
  rw [← hsize, Text.byteLength_cons, hindex, Nat.add_assoc]

theorem onMarkupDeclarationOpen_jumps (h : Enters cs taken l l.state) (c : Option Char) :
    Jumps cs l.cursor (l.onMarkupDeclarationOpen c).cursor := by
  have hdashes : ∀ d ∈ "--".toList, IsPlain d := isPlain_of_all (by decide)
  have hbracket : ∀ d ∈ "[CDATA[".toList, IsPlain d := isPlain_of_all (by decide)
  unfold onMarkupDeclarationOpen
  split
  · next hp =>
    obtain ⟨tail, hh⟩ := List.isPrefixOf_iff_prefix.1 hp
    exact skip_jumps h hh.symm hdashes rfl
  · dsimp only
    split
    · next hp =>
      obtain ⟨tail, hh⟩ := List.isPrefixOf_iff_prefix.1 ((Bool.and_eq_true _ _).mp hp).1
      exact skip_jumps h hh.symm hbracket rfl
    · split <;> exact jumps_refl h

theorem onNamedCharacterReference_jumps (h : Enters cs taken l l.state) :
    Jumps cs l.cursor l.onNamedCharacterReference.cursor := by
  unfold onNamedCharacterReference
  split
  · exact jumps_refl h
  · next found hfound =>
    obtain ⟨raw, tail, hh, hlen, hne, hchars, -⟩ := NamedReference.match?_eq_some hfound
    obtain ⟨c, raw, rfl⟩ := List.exists_cons_of_ne_nil hne
    have hjumps := skip_jumps h hh (fun d hd => isPlain_of_isReferenceChar (hchars d hd))
      (byteLength_of_isReferenceChar hchars)
    rw [hlen] at hjumps
    have hkeeps := flushName_keeps l found (l.cursor.start + found.length)
    rw [← congrArg (Cursor.skip · found.length) (hkeeps _).cursor] at hjumps
    exact hjumps

theorem onNumericReferenceDigits_cursor (l : Lexer) (isDigit : Char → Bool) (radix : Nat)
    (s : LexState) (c : Option Char) :
    (l.onNumericReferenceDigits isDigit radix s c).cursor = l.cursor := by
  unfold onNumericReferenceDigits
  repeat' split
  · rfl
  · exact (finishNumericReference_keeps l _).cursor
  · exact (finishNumericReference_keeps (l.report _) _).cursor
  · exact (finishNumericReference_keeps (l.report _) _).cursor

/-- A step moves the cursor forward only, and over plain characters. -/
theorem step_jumps (h : Enters cs taken l l.state) : Jumps cs l.cursor l.step.cursor := by
  unfold step
  dsimp only
  split
  case h_23 => exact onMarkupDeclarationOpen_jumps h _
  case h_38 => exact onNamedCharacterReference_jumps h
  case h_43 | h_44 =>
    rw [onNumericReferenceDigits_cursor]
    exact jumps_refl h
  all_goals
    simp only [onData, onRcdata, onRawText, onTagOpen, onEndTagOpen, onTagName, onTextLessThanSign,
      onTextEndTagOpen, onTextEndTagName, onBeforeAttributeName, onAttributeName,
      onAfterAttributeName, onBeforeAttributeValue, onAttributeValueQuoted,
      onAttributeValueUnquoted, onAfterAttributeValueQuoted, onSelfClosingStartTag,
      onBogusComment, onCommentStart, onCommentStartDash, onComment,
      onCommentLessThanSign, onCommentLessThanSignBang, onCommentLessThanSignBangDash,
      onCommentLessThanSignBangDashDash, onCommentEndDash, onCommentEnd, onCommentEndBang,
      onCdataSection, onCdataSectionBracket, onCdataSectionEnd, onCharacterReference,
      onAmbiguousAmpersand, onNumericCharacterReference, onNumericReferenceStart,
      onInterpolationStart, onInterpolationData, onInterpolationEnd]
    repeat' split
  all_goals exact jumps_refl h

/-! ## The count of the steps -/

/-- The index of the character that is at hand in the next step. -/
def upcoming (l : Lexer) : Nat := if l.again then l.cursor.start else l.cursor.index

/-- How many steps at most the next character is still at hand in. -/
def turns (l : Lexer) : Nat := if l.again then l.rank + 1 else 4

theorem turns_pos (l : Lexer) : 0 < l.turns := by
  unfold turns
  split
  · exact Nat.succ_pos _
  · decide

theorem entered_start (l : Lexer) : l.entered.cursor.start = l.upcoming := by
  unfold entered upcoming
  split
  · rfl
  · rw [advance_cursor, Cursor.advance_start]

theorem entered_rank_lt (l : Lexer) : l.entered.rank < l.turns := by
  unfold entered turns
  split
  · exact Nat.lt_succ_self _
  · exact Nat.lt_succ_of_le (LexState.rank_le_three _ _ _)

/-- The cursor only goes on when a step takes up the next character. -/
theorem Tracks.entered_forward (h : Tracks cs taken l) (hf : l.finished = false) :
    l.cursor.index ≤ l.entered.cursor.index := by
  have hon := (h.enters hf).1.steady.on
  by_cases ha : l.again = true
  · rw [entered, if_pos ha]
  · have hstart := hon.start_le_index
    rwa [entered_start, upcoming, if_neg ha] at hstart

theorem advanceStep_again (l : Lexer) : l.advanceStep.again = l.entered.step.again := by
  rw [advanceStep_eq]
  split <;> rfl

theorem Tracks.advanceStep_forward (h : Tracks cs taken l) (hf : l.finished = false) :
    l.entered.cursor.index ≤ l.advanceStep.cursor.index := by
  obtain ⟨mid, hmid, -⟩ := step_jumps (h.enters hf).1
  rw [advanceStep_eq]
  split <;> exact hmid.le

/-- A step that goes on with its character leaves fewer turns for it. -/
theorem Tracks.advanceStep_repeats (h : Tracks cs taken l) (hf : l.finished = false)
    (ha : l.advanceStep.again = true) :
    l.advanceStep.upcoming = l.upcoming ∧ l.advanceStep.turns < l.turns := by
  have hstep : l.entered.step.again = true := l.advanceStep_again ▸ ha
  obtain ⟨hcursor, hlt⟩ := (step_moves (h.enters hf).1).repeats hstep
  obtain ⟨log, hlog⟩ := advanceStep_goesOn (.inl hstep)
  constructor
  · rw [upcoming, if_pos ha, ← entered_start, hlog, ← hcursor]
  · rw [turns, if_pos ha, hlog]
    exact Nat.lt_of_le_of_lt hlt l.entered_rank_lt

/-- A step that takes its character leaves the text behind it. -/
theorem Tracks.advanceStep_takes (h : Tracks cs taken l) (hf : l.finished = false)
    (hf' : l.advanceStep.finished = false) (ha : l.advanceStep.again = false) :
    l.upcoming < l.advanceStep.upcoming := by
  have hstep : l.entered.step.again = false := l.advanceStep_again ▸ ha
  have he := (h.enters hf).1
  have hforward := h.advanceStep_forward hf
  -- the text is not at its end, so that there was a character, of a byte at least
  have hchar : l.entered.cursor.char ≠ none := by
    intro hnone
    rw [← ((step_moves he).takes hstep).1] at hnone
    obtain ⟨log, hlog⟩ := advanceStep_atEnd hstep hnone
    rw [hlog] at hf'
    cases hf'
  obtain ⟨c, hc⟩ := Option.ne_none_iff_exists'.1 hchar
  have hsize := he.steady.on.size_le hc
  have hpos := Char.utf8Size_pos c
  have hnext : l.advanceStep.upcoming = l.advanceStep.cursor.index := by
    rw [upcoming, if_neg (by simp [ha])]
  rw [entered_start] at hsize
  omega

/-- The steps so far had the lexers `hs` at hand, each character in four of them at most, and `n` is a
bound for them and those that are left. -/
structure Counted (n : Nat) (hs : List Lexer) (l : Lexer) : Prop where
  total : hs.length + l.potential ≤ n
  each : ∀ i, handled i hs ≤ 4
  next : l.finished = false → handled l.upcoming hs + l.turns ≤ 4
  behind : l.finished = false → ∀ e ∈ hs, e.cursor.start ≤ l.upcoming
  starts : (hs.map fun e => e.cursor.start).Pairwise (· ≤ ·)
  indices : ((hs ++ [l]).map fun e => e.cursor.index).Pairwise (· ≤ ·)

/-- A row of indices that goes on from the last one. -/
theorem pairwise_concat {ns : List Nat} {a b : Nat} (h : (ns ++ [a]).Pairwise (· ≤ ·)) (hle : a ≤ b) :
    (ns ++ [b]).Pairwise (· ≤ ·) := by
  rw [List.pairwise_append] at h ⊢
  refine ⟨h.1, List.pairwise_singleton _ _, fun x hx z hz => ?_⟩
  obtain rfl := List.mem_singleton.1 hz
  exact Nat.le_trans (h.2.2 x hx a (List.mem_singleton_self a)) hle

theorem pairwise_push {ns : List Nat} {a b : Nat} (h : (ns ++ [a]).Pairwise (· ≤ ·)) (hle : a ≤ b) :
    (ns ++ [a] ++ [b]).Pairwise (· ≤ ·) := by
  rw [List.pairwise_append]
  refine ⟨h, List.pairwise_singleton _ _, fun x hx z hz => ?_⟩
  obtain rfl := List.mem_singleton.1 hz
  rcases List.mem_append.1 hx with hx | hx
  · exact Nat.le_trans ((List.pairwise_append.1 h).2.2 x hx a (List.mem_singleton_self a)) hle
  · obtain rfl := List.mem_singleton.1 hx
    exact hle

namespace Counted

/-- What was at hand with one step more is not behind what is next. -/
theorem starts_le (hc : Counted n hs l) (hf : l.finished = false) :
    ∀ e ∈ hs ++ [l.entered], e.cursor.start ≤ l.upcoming := by
  intro e he
  rcases List.mem_append.1 he with he | he
  · exact hc.behind hf e he
  · obtain rfl := List.mem_singleton.1 he
    exact Nat.le_of_eq l.entered_start

/-- One more step with the character that is next is still among its four. -/
theorem each_concat (hc : Counted n hs l) (hf : l.finished = false) (i : Nat) :
    handled i (hs ++ [l.entered]) ≤ 4 := by
  have heach := hc.each i
  have hnext := hc.next hf
  have hturns := l.turns_pos
  rw [handled_concat, l.entered_start]
  split
  · next hi =>
    subst hi
    omega
  · exact heach

/-- The next character has used up one turn more, or it is another one. -/
theorem next_concat (hc : Counted n hs l) (h : Tracks cs taken l) (hf : l.finished = false)
    (hf' : l.advanceStep.finished = false) :
    handled l.advanceStep.upcoming (hs ++ [l.entered]) + l.advanceStep.turns ≤ 4 := by
  have hnext := hc.next hf
  cases ha : l.advanceStep.again with
  | true =>
    obtain ⟨hup, hlt⟩ := h.advanceStep_repeats hf ha
    rw [handled_concat, hup, if_pos l.entered_start]
    omega
  | false =>
    have hmore := h.advanceStep_takes hf hf' ha
    rw [handled_of_lt fun e he => Nat.lt_of_le_of_lt (hc.starts_le hf e he) hmore, turns, ha]
    exact Nat.le_refl 4

/-- One more step is taken. -/
theorem advanceStep (hc : Counted n hs l) (h : Tracks cs taken l) (hf : l.finished = false) :
    Counted n (hs ++ [l.entered]) l.advanceStep := by
  have hpotential := (h.advanceStep_potential hf).1
  have hbehind := hc.starts_le hf
  refine ⟨?_, hc.each_concat hf, hc.next_concat h hf, fun hf' e he => ?_, ?_, ?_⟩
  · have htotal := hc.total
    rw [List.length_append, List.length_singleton]
    omega
  · cases ha : l.advanceStep.again with
    | true => exact (h.advanceStep_repeats hf ha).1 ▸ hbehind e he
    | false => exact Nat.le_trans (hbehind e he) (Nat.le_of_lt (h.advanceStep_takes hf hf' ha))
  · rw [List.map_append, List.map_singleton, List.pairwise_append]
    refine ⟨hc.starts, List.pairwise_singleton _ _, fun a ha b hb => ?_⟩
    obtain ⟨e, he, rfl⟩ := List.mem_map.1 ha
    obtain rfl := List.mem_singleton.1 hb
    exact l.entered_start ▸ hc.behind hf e he
  · have hindices := hc.indices
    rw [List.map_append, List.map_singleton] at hindices
    rw [List.map_append, List.map_append, List.map_singleton, List.map_singleton]
    exact pairwise_push (pairwise_concat hindices (h.entered_forward hf)) (h.advanceStep_forward hf)

/-- Nothing is counted but the steps, which come from the cursor and from how often the lexer may go on
with the character. -/
theorem congr (hc : Counted n hs l) (hcursor : y.cursor = l.cursor) (hagain : y.again = l.again)
    (hfinished : y.finished = l.finished) (hpotential : y.potential = l.potential)
    (hturns : l.finished = false → y.turns = l.turns) : Counted n hs y := by
  have hup : y.upcoming = l.upcoming := by rw [upcoming, upcoming, hcursor, hagain]
  refine ⟨hpotential ▸ hc.total, hc.each, fun hf => ?_, fun hf => ?_, hc.starts, ?_⟩
  · have hf' : l.finished = false := hfinished ▸ hf
    rw [hup, hturns hf']
    exact hc.next hf'
  · rw [hup]
    exact hc.behind (hfinished ▸ hf)
  · have hindices := hc.indices
    rw [List.map_append, List.map_singleton] at hindices ⊢
    rwa [hcursor]

/-- A run that finds a token ready takes no step. -/
theorem ready (hc : Counted n hs l) {t : Token} {ready : List Token}
    (hr : l.buffer.ready = t :: ready) (fuel : Nat) :
    Counted n (hs ++ l.runHands fuel) (l.run fuel).2 ∧
      l.run fuel = (Lexer.advanceStep^[(l.runHands fuel).length] l).handOut := by
  rw [runHands_ready hr, run_ready hr, List.append_nil]
  refine ⟨hc.congr rfl rfl rfl rfl fun _ => rfl, ?_⟩
  simp [handOut, hr]

/-- A run behind the end of the text takes no step. -/
theorem finished (hc : Counted n hs l) (hr : l.buffer.ready = []) (hf : l.finished = true)
    (fuel : Nat) : Counted n (hs ++ l.runHands fuel) (l.run fuel).2 ∧
      l.run fuel = (Lexer.advanceStep^[(l.runHands fuel).length] l).handOut := by
  rw [runHands_finished hf, run_finished hr hf, List.append_nil]
  refine ⟨hc, ?_⟩
  simp [handOut, hr]

/-- The steps of a run are counted. -/
theorem run {fuel : Nat} (hc : Counted n hs l) (h : Tracks cs taken l) (hle : l.potential ≤ fuel) :
    Counted n (hs ++ l.runHands fuel) (l.run fuel).2 ∧
      l.run fuel = (Lexer.advanceStep^[(l.runHands fuel).length] l).handOut := by
  induction fuel generalizing hs l with
  | zero =>
    cases hr : l.buffer.ready with
    | cons t ready => exact hc.ready hr 0
    | nil =>
      cases hf : l.finished with
      | true => exact hc.finished hr hf 0
      | false => exact absurd (potential_pos hf) (Nat.not_lt_of_le hle)
  | succ fuel ih =>
    cases hr : l.buffer.ready with
    | cons t ready => exact hc.ready hr (fuel + 1)
    | nil =>
      cases hf : l.finished with
      | true => exact hc.finished hr hf (fuel + 1)
      | false =>
        have hlt := (h.advanceStep_potential hf).1
        rw [runHands_succ hr hf, run_succ hr hf, List.append_cons, List.length_cons,
          Function.iterate_succ_apply]
        exact ih (hc.advanceStep h hf) (h.advanceStep hf hr) (by omega)

end Counted

/-! ## One pull after the other -/

/-- A lexer can be led on between two pulls: it is told the namespace, whether double braces count and
what to log, and where content starts also how to read it. -/
inductive Led (x : Lexer) : Lexer → Prop
  | here : Led x x
  | told {y z : Lexer} (h : Led x y) (ht : y.Told z) : Led x z
  | entered {y : Lexer} (h : Led x y) {s : LexState} (hs : IsTextState s) (hc : y.AtContent) :
    Led x (y.enter s)

namespace Led

theorem tracks (h : x.Led y) (ht : Tracks cs taken x) : Tracks cs taken y := by
  induction h with
  | here => exact ht
  | told _ htold ih =>
    obtain ⟨ns, interpolating, log, rfl⟩ := htold
    exact ih.outside ns interpolating log
  | entered _ hs hc ih => exact ih.enter hs hc

/-- Being led on is no step. -/
theorem counted (h : x.Led y) (hc : Counted n hs x) : Counted n hs y := by
  induction h with
  | here => exact hc
  | told _ htold ih =>
    obtain ⟨ns, interpolating, log, rfl⟩ := htold
    exact ih.congr rfl rfl rfl rfl fun _ => rfl
  | @entered y _ s hs hat ih =>
    rw [enter_eq]
    -- the state does not matter where the next step takes up a character
    refine ih.congr rfl rfl rfl ?_ fun hf => ?_
    · rcases hat.place with hf | ⟨-, ha⟩
      · simp only [potential, hf, if_true]
      · simp only [potential, ha, Bool.false_eq_true, if_false]
    · rcases hat.place with hf' | ⟨-, ha⟩
      · exact absurd (hf'.symm.trans hf) (by decide)
      · simp only [turns, ha, Bool.false_eq_true, if_false]

theorem unmoved (h : x.Led y) : x.Unmoved y := by
  induction h with
  | here => exact ⟨rfl, rfl, rfl⟩
  | told _ htold ih => exact ih.trans htold.unmoved
  | entered _ hs hc ih => exact ih.trans (Steered.unmoved (.entered (.refl _) hs) hc)

end Led

/-- `ls n` is the lexer in front of pull number `n`: it was led there from the start, or from where the
pull in front of it left it. -/
structure PullsFrom (start : Lexer) (ls : Nat → Lexer) : Prop where
  first : start.Led (ls 0)
  next : ∀ n, (ls n).pull.2.Led (ls (n + 1))

/-- The lexers as the steps of the first pulls take them up, `n` of them. -/
def handsBefore (ls : Nat → Lexer) (n : Nat) : List Lexer :=
  (List.range n).flatMap fun m => (ls m).hands

theorem handsBefore_succ (ls : Nat → Lexer) (n : Nat) :
    handsBefore ls (n + 1) = handsBefore ls n ++ (ls n).hands := by
  simp [handsBefore, List.range_succ]

/-- The pulls on a text come to its end, in steps of which no character sees more than four. -/
structure PullsFinish (cs : List Char) (ls : Nat → Lexer) : Prop where
  /-- From one pull on the text is at its end. -/
  ends : ∃ last ≤ 12 * (cs.length + 1), ∀ n, (ls n).pull.1 = none ↔ last ≤ n
  /-- No pull runs out of steps, and nothing else fails. -/
  noBreach : ∀ n, (ls n).pull.2.breaches = []
  /-- A pull takes the steps that are counted, and then what is ready. -/
  takes : ∀ n, (ls n).pull = (advanceStep^[(ls n).hands.length] (ls n)).handOut
  total : ∀ n, (handsBefore ls n).length ≤ 4 * (cs.length + 1)
  /-- Each character, and the end of the text, is at hand in four steps at most. -/
  each : ∀ n i, handled i (handsBefore ls n) ≤ 4
  /-- The cursor never moves back, neither the character at hand nor the text behind it. -/
  starts : ∀ n, ((handsBefore ls n).map fun e => e.cursor.start).Pairwise (· ≤ ·)
  indices : ∀ n, ((handsBefore ls n ++ [ls n]).map fun e => e.cursor.index).Pairwise (· ≤ ·)

section

variable {ls : Nat → Lexer} {start : Lexer}

/-- Where pulls come to. -/
theorem PullsFrom.counted (h : PullsFrom start ls) (ht : Tracks cs [] start) {n : Nat}
    (hc : Counted n [] start) (m : Nat) :
    (∃ taken, Tracks cs taken (ls m)) ∧ Counted n (handsBefore ls m) (ls m) := by
  induction m with
  | zero => exact ⟨⟨[], h.first.tracks ht⟩, h.first.counted hc⟩
  | succ m ih =>
    obtain ⟨⟨taken, htracks⟩, hcounted⟩ := ih
    have hnext := h.next m
    refine ⟨?_, ?_⟩
    · have hpull := htracks.pull
      generalize (ls m).pull = handed at hpull hnext
      cases hpull with
      | token ht' _ _ => exact ⟨_, hnext.tracks ht'⟩
      | ended ht' _ _ => exact ⟨_, hnext.tracks ht'⟩
    · rw [handsBefore_succ]
      exact hnext.counted (hcounted.run htracks (potential_le _)).1

/-- Behind the end of the text there is nothing more. -/
theorem PullsFrom.stays (h : PullsFrom start ls) {m : Nat} (ht : Tracks cs taken (ls m))
    (hnone : (ls m).pull.1 = none) : (ls (m + 1)).pull.1 = none := by
  have hunmoved := (h.next m).unmoved
  have hpull := ht.pull
  generalize (ls m).pull = handed at hpull hnone hunmoved
  cases hpull with
  | token => cases hnone
  | ended _ hf hr =>
    rw [pull, run_finished (hunmoved.buffer ▸ hr) (hunmoved.finished.trans hf)]

/-- A pull that hands out a token leaves fewer of them. -/
theorem PullsFrom.tokensLeft_lt (h : PullsFrom start ls) {m : Nat} (ht : Tracks cs taken (ls m))
    (hsome : (ls m).pull.1 ≠ none) : (ls (m + 1)).tokensLeft < (ls m).tokensLeft := by
  have hunmoved := (h.next m).unmoved
  have hpull := ht.pull
  generalize (ls m).pull = handed at hpull hsome hunmoved
  cases hpull with
  | token _ hlt _ => exact hunmoved.tokensLeft ▸ hlt
  | ended => exact absurd rfl hsome

/-- However a lexer is led on, pulling it comes to the end of the text. -/
theorem PullsFrom.ends (h : PullsFrom start ls) (ht : ∀ m, ∃ taken, Tracks cs taken (ls m)) :
    ∃ last ≤ start.tokensLeft, ∀ n, (ls n).pull.1 = none ↔ last ≤ n := by
  have hleft : ∀ n, (∀ m < n, (ls m).pull.1 ≠ none) → (ls n).tokensLeft + n ≤ start.tokensLeft := by
    intro n
    induction n with
    | zero => exact fun _ => Nat.le_of_eq h.first.unmoved.tokensLeft
    | succ n ih =>
      intro hsome
      have hlast := ih fun m hm => hsome m (Nat.lt_succ_of_lt hm)
      obtain ⟨taken, htracks⟩ := ht n
      have hlt := h.tokensLeft_lt htracks (hsome n (Nat.lt_succ_self n))
      omega
  have hexists : ∃ n, (ls n).pull.1 = none := by
    by_contra hno
    have hsome : ∀ n, (ls n).pull.1 ≠ none := fun n hn => hno ⟨n, hn⟩
    have hmany := hleft (start.tokensLeft + 1) fun m _ => hsome m
    omega
  refine ⟨Nat.find hexists, ?_, fun n => ⟨fun hn => Nat.find_min' hexists hn, fun hn => ?_⟩⟩
  · have hfew := hleft (Nat.find hexists) fun m hm => Nat.find_min hexists hm
    omega
  · induction n, hn using Nat.le_induction with
    | base => exact Nat.find_spec hexists
    | succ n _ ih =>
      obtain ⟨taken, htracks⟩ := ht n
      exact h.stays htracks ih

/-- Pulling a lexer in front of a text finishes. -/
theorem PullsFrom.finish {origin : Origin} {tracing : Bool}
    (h : PullsFrom (ofChars cs (Locator.ofChars cs origin) tracing) ls) : PullsFinish cs ls := by
  have hstart := tracks_start cs origin tracing
  have hcounted : Counted (4 * (cs.length + 1)) []
      (ofChars cs (Locator.ofChars cs origin) tracing) := by
    refine ⟨?_, fun i => Nat.zero_le _, fun _ => ?_, fun _ => ?_, .nil, List.pairwise_singleton _ _⟩
    · simp [potential, ofChars, Cursor.ofChars]
    · simp [handled, turns, ofChars]
    · simp
  have hall := h.counted hstart hcounted
  refine ⟨?_, fun n => ?_, fun n => ?_, fun n => ?_, fun n => (hall n).2.each,
    fun n => (hall n).2.starts, fun n => (hall n).2.indices⟩
  · obtain ⟨last, hlast, hiff⟩ := h.ends fun m => (hall m).1
    refine ⟨last, Nat.le_trans hlast (Nat.le_of_eq ?_), hiff⟩
    simp only [tokensLeft, potential, ofChars, Cursor.ofChars, TokenBuffer.count]
    simp only [List.length_nil, Option.toList, Bool.false_eq_true, if_false]
    omega
  · obtain ⟨⟨taken, htracks⟩, -⟩ := hall n
    have hpull := htracks.pull
    generalize (ls n).pull = handed at hpull
    cases hpull with
    | token ht _ _ => exact ht.noBreach
    | ended ht _ _ => exact ht.noBreach
  · obtain ⟨⟨taken, htracks⟩, hc⟩ := hall n
    exact (hc.run htracks (potential_le _)).2
  · exact Nat.le_trans (Nat.le_add_right _ _) (hall n).2.total

end

theorem Led.steered {z : Lexer} (h : x.Led y) (hat : y.AtContent) (hz : y.Steered z) :
    x.Led z ∧ z.AtContent := by
  have htold : ∀ {w : Lexer}, y.Told w → x.Led w ∧ w.AtContent := by
    intro w hw
    refine ⟨.told h hw, ?_⟩
    obtain ⟨ns, interpolating, log, rfl⟩ := hw
    exact ⟨hat.ready, hat.place⟩
  cases hz with
  | told hw => exact htold hw
  | entered hw hs =>
    obtain ⟨hled, hcontent⟩ := htold hw
    exact ⟨.entered hled hs hcontent, hcontent.enter hs⟩

end Lexer

/-! ## The pulls of the tree builder -/

namespace Builder

open Lexer (PullsFrom)

variable {cs : List Char} {loc : Locator} {taken ts : List Token} {b b' : Builder} {x : Lexer}

/-- The builder behind one pull more: it takes the token, or at the end of the text what the assembler
has left. -/
def afterPull (b : Builder) : Builder :=
  match b.lexer.pull with
  | (some t, x) => b.take t x
  | (none, x) => b.atEnd x

theorem afterPull_token {t : Token} (h : b.lexer.pull = (some t, x)) : b.afterPull = b.take t x := by
  rw [afterPull, h]

theorem afterPull_atEnd (h : b.lexer.pull = (none, x)) : b.afterPull = b.atEnd x := by
  rw [afterPull, h]

/-- The builder takes tokens, or the text is at its end. -/
inductive Continues (cs : List Char) (loc : Locator) (b : Builder) : Prop
  | runs {taken : List Token} (h : Runs cs loc taken b)
  | ended (finished : b.lexer.finished = true) (ready : b.lexer.buffer.ready = [])

/-- Units that are taken where content starts lead the lexer on. -/
theorem drain_led (hat : b.lexer.AtContent) : b.lexer.Led b.drain.lexer :=
  (drain_lexer (P := fun y => b.lexer.Led y ∧ y.AtContent) (fun hy h => h.1.steered h.2 hy)
    ⟨.here, hat⟩).1

theorem atEnd_led (hf : x.finished = true) (hr : x.buffer.ready = []) :
    x.Led (b.atEnd x).lexer ∧ Continues cs loc (b.atEnd x) := by
  have hled : x.Led (b.atEnd x).lexer :=
    drain_led (b := { b with lexer := x, assembler := b.assembler.commit }) ⟨hr, .inl hf⟩
  have hunmoved := hled.unmoved
  exact ⟨hled, .ended (hunmoved.finished.trans hf) (hunmoved.buffer ▸ hr)⟩

/-- A builder leads the lexer on in front of its next pull. -/
theorem Continues.afterPull (h : Continues cs loc b) :
    b.lexer.pull.2.Led b.afterPull.lexer ∧ Continues cs loc b.afterPull := by
  cases h with
  | ended hf hr =>
    have hpull : b.lexer.pull = (none, b.lexer) := Lexer.run_finished hr hf _
    rw [afterPull_atEnd hpull, hpull]
    exact atEnd_led hf hr
  | runs h =>
    cases h.next with
    | @token t x hpull hx hloc hruns hlt hc =>
      rw [afterPull_token hpull, hpull]
      refine ⟨?_, .runs hruns⟩
      cases hk : t.kind.closesTag with
      | false => exact .told .here (take_told h hx hloc hk)
      | true =>
        obtain ⟨hready, -, hbehind, -⟩ := hc hk
        exact drain_led (b := { b with lexer := x, assembler := b.assembler.process t })
          (hbehind.atContent hready)
    | @ended x hpull hx hloc hended =>
      obtain ⟨floor, m, p, -, -, hstands⟩ := h.stands
      have hhanded := hstands.built.tracks.pull
      rw [afterPull_atEnd hpull, hpull]
      rw [hpull] at hhanded
      cases hhanded with
      | ended _ hf hr => exact atEnd_led hf hr

theorem Continues.afterPulls (h : Continues cs loc b) (n : Nat) :
    Continues cs loc (Builder.afterPull^[n] b) := by
  induction n generalizing b with
  | zero => exact h
  | succ n ih => exact ih h.afterPull.2

/-- The tokens that a builder takes are those of its pulls. -/
theorem Takes.afterPulls (h : b.Takes ts b') : b' = Builder.afterPull^[ts.length] b := by
  induction h with
  | nothing => rfl
  | token _ hpull ih =>
    rw [List.length_append, List.length_singleton, Function.iterate_succ_apply', ← ih,
      afterPull_token hpull]

end Builder

namespace Template

open Lexer (PullsFrom PullsFinish)

/-- However the lexer of a template is led on between two pulls, and the tree builder is one who does so,
the pulls come to the end of the text in steps of which no character sees more than four. -/
theorem pulls_finish (text : String) (o : Options) :
    (∀ ls, PullsFrom (startOf text o).lexer ls → PullsFinish text.toList ls) ∧
      PullsFrom (startOf text o).lexer (fun n => (Builder.afterPull^[n] (startOf text o)).lexer) ∧
      ∃ n, builderOf text o = (Builder.afterPull^[n] (startOf text o)).closeAll.placeRoot := by
  have hstart : Builder.Continues text.toList (locatorOf text o) (startOf text o) :=
    .runs (runs_startOf text o)
  refine ⟨fun ls h => h.finish, ⟨.here, fun n => ?_⟩, ?_⟩
  · rw [Function.iterate_succ_apply']
    exact (hstart.afterPulls n).afterPull.1
  · obtain ⟨ts, b, x, hall⟩ := exists_takesAll text o
    refine ⟨ts.length + 1, ?_⟩
    rw [Function.iterate_succ_apply', ← hall.takes.afterPulls, Builder.afterPull_atEnd hall.pull]
    exact hall.builderOf

/-- The end of a text in the middle of a numeric reference in braces is at hand in four steps. -/
theorem pulls_finish_openReference :
    PullsFrom (startOf "\x7b\x7b&#" {}).lexer
        (fun n => (Builder.afterPull^[n] (startOf "\x7b\x7b&#" {})).lexer) ∧
      PullsFinish "\x7b\x7b&#".toList
        (fun n => (Builder.afterPull^[n] (startOf "\x7b\x7b&#" {})).lexer) ∧
      Lexer.handled 4 (Lexer.handsBefore
        (fun n => (Builder.afterPull^[n] (startOf "\x7b\x7b&#" {})).lexer) 3) = 4 := by
  obtain ⟨hfinish, hbuilder, -⟩ := pulls_finish "\x7b\x7b&#" {}
  exact ⟨hbuilder, hfinish _ hbuilder, by decide +kernel⟩

end Template
end TemplateSyntax
