import TemplateSyntax.Proofs.Lexing
import TemplateSyntax.Proofs.PrintedTokens

/-! # Comments are delimited as by the rule

The lexer reads a comment with a state for each kind of dashes that it has not decided on.  Each step
writes what cannot belong to the end of the comment any more, so that what is written and what is not
make up the text so far (`CommentStep`).  The rule for the end of comments, which looks at the text only,
follows by induction on the steps. -/

namespace TemplateSyntax

open Text (byteLength Gives)

/-- The dashes that are read and not written yet in a state. -/
def LexState.dashes : LexState → Dashes
  | .commentStartDash | .commentEndDash | .commentLessThanSignBangDash => .one
  | .commentEnd | .commentLessThanSignBangDashDash => .two
  | .commentEndBang => .bang
  | _ => .none

/-- The states in a comment, but for those right at its start. -/
def LexState.inComment : LexState → Bool
  | .comment | .commentLessThanSign | .commentLessThanSignBang | .commentLessThanSignBangDash
  | .commentLessThanSignBangDashDash | .commentEndDash | .commentEnd | .commentEndBang => true
  | _ => false

namespace Dashes

variable {c : Char}

theorem Agree.refl (d : Dashes) (c : Char) : d.Agree d c := ⟨rfl, fun _ => .inl rfl⟩

theorem next_none (hdash : c ≠ '-') : none.next c = none := by
  unfold next
  split <;> simp_all

/-- One dash is nothing in front of another character. -/
theorem none_agree_one (hdash : c ≠ '-') : none.Agree one c := by
  refine ⟨?_, fun _ => .inr ⟨rfl, rfl⟩⟩
  rw [next_none hdash]
  unfold next
  split <;> simp_all

/-- Two dashes are nothing in front of a character that is none, no `!` and no `>`. -/
theorem none_agree_two (hdash : c ≠ '-') (hbang : c ≠ '!') (hclose : c ≠ '>') : none.Agree two c := by
  refine ⟨?_, fun h => absurd h hclose⟩
  rw [next_of_ne hdash hbang, next_of_ne hdash hbang]

/-- `--!` is nothing in front of a character that is no dash and no `>`. -/
theorem none_agree_bang (hdash : c ≠ '-') (hclose : c ≠ '>') : none.Agree bang c := by
  refine ⟨?_, fun h => absurd h hclose⟩
  rw [next_none hdash]
  unfold next
  split <;> simp_all

end Dashes

namespace Lexer

variable {r rest back value : List Char} {rest? : Option (List Char)} {l l' e x : Lexer}
  {start i stop : Nat} {c : Char} {d : Dashes} {at? : Option Char}

theorem push_nil (e : Lexer) : e.push (String.ofList []) = e := push_empty e

/-- What a step in a comment comes to, where `d` are the dashes that are not written yet: the character
is taken, it is taken again in another state, the comment is closed, or the text ends. -/
inductive CommentStep (e : Lexer) (d : Dashes) : Option Char → Lexer → Prop
  | takes {c : Char} {x : Lexer} (s : LexState) (w : List Char)
      (hx : x = (e.push (String.ofList w)).goto s) (hs : s.inComment = true)
      (hd : s.dashes = d.next c) (hw : w ++ s.dashes.text = d.text ++ [c])
      (hc : c = '>' → d.isClosing = false) : CommentStep e d (some c) x
  | keeps {at? : Option Char} {x e' : Lexer} (s : LexState) (w : List Char)
      (hx : x = (e'.push (String.ofList w)).reconsume s)
      (he : e' = e ∨ e' = e.report .nestedComment) (hs : s.inComment = true)
      (hw : w ++ s.dashes.text = d.text) (hend : at? = none → s.dashes = d)
      (hc : ∀ c, at? = some c → s.dashes.Agree d c) : CommentStep e d at? x
  | closes {x e' : Lexer} (hx : x = e'.endToken.goto .data)
      (he : e' = e ∨ e' = e.report .incorrectlyClosedComment) (hd : d.isClosing = true) :
    CommentStep e d (some '>') x
  | ends {x : Lexer} (hx : x = (e.report .eofInComment).goto .data) : CommentStep e d none x

section

variable (e : Lexer) (at? : Option Char)

theorem onComment_commentStep : CommentStep e .none at? (e.onComment at?) := by
  unfold onComment
  split
  · exact .takes .commentLessThanSign ['<'] rfl rfl rfl rfl (by decide)
  · exact .takes .commentEndDash [] (by rw [push_nil]) rfl rfl rfl (by decide)
  · exact .ends rfl
  · next c _ hdash =>
    exact .takes .comment [c] rfl rfl (Dashes.next_none hdash).symm rfl fun _ => rfl

theorem onCommentLessThanSign_commentStep :
    CommentStep e .none at? (e.onCommentLessThanSign at?) := by
  unfold onCommentLessThanSign
  split
  · exact .takes .commentLessThanSignBang ['!'] rfl rfl rfl rfl (by decide)
  · exact .takes .commentLessThanSign ['<'] rfl rfl rfl rfl (by decide)
  · exact .keeps .comment [] (by rw [push_nil]) (.inl rfl) rfl rfl (fun _ => rfl)
      fun c _ => .refl _ c

theorem onCommentLessThanSignBang_commentStep :
    CommentStep e .none at? (e.onCommentLessThanSignBang at?) := by
  unfold onCommentLessThanSignBang
  split
  · exact .takes .commentLessThanSignBangDash [] (by rw [push_nil]) rfl rfl rfl (by decide)
  · exact .keeps .comment [] (by rw [push_nil]) (.inl rfl) rfl rfl (fun _ => rfl)
      fun c _ => .refl _ c

theorem onCommentLessThanSignBangDash_commentStep :
    CommentStep e .one at? (e.onCommentLessThanSignBangDash at?) := by
  unfold onCommentLessThanSignBangDash
  split
  · exact .takes .commentLessThanSignBangDashDash [] (by rw [push_nil]) rfl rfl rfl (by decide)
  · exact .keeps .commentEndDash [] (by rw [push_nil]) (.inl rfl) rfl rfl (fun _ => rfl)
      fun c _ => .refl _ c

theorem onCommentLessThanSignBangDashDash_commentStep :
    CommentStep e .two at? (e.onCommentLessThanSignBangDashDash at?) := by
  unfold onCommentLessThanSignBangDashDash
  split
  · exact .keeps .commentEnd [] (by rw [push_nil]) (.inl rfl) rfl rfl (fun _ => rfl)
      fun c _ => .refl _ c
  · exact .keeps .commentEnd [] (by rw [push_nil]) (.inl rfl) rfl rfl (fun _ => rfl)
      fun c _ => .refl _ c
  · exact .keeps .commentEnd [] (by rw [push_nil]) (.inr rfl) rfl rfl (fun _ => rfl)
      fun c _ => .refl _ c

theorem onCommentEndDash_commentStep : CommentStep e .one at? (e.onCommentEndDash at?) := by
  unfold onCommentEndDash
  split
  · exact .takes .commentEnd [] (by rw [push_nil]) rfl rfl rfl (by decide)
  · exact .ends rfl
  · next c hdash =>
    refine .keeps .comment ['-'] rfl (.inl rfl) rfl rfl (by simp) fun x hx => ?_
    obtain rfl := Option.some.inj hx
    exact Dashes.none_agree_one hdash

theorem onCommentEnd_commentStep : CommentStep e .two at? (e.onCommentEnd at?) := by
  unfold onCommentEnd
  split
  · exact .closes rfl (.inl rfl) rfl
  · exact .takes .commentEndBang [] (by rw [push_nil]) rfl rfl rfl (by decide)
  · exact .takes .commentEnd ['-'] rfl rfl rfl rfl (by decide)
  · exact .ends rfl
  · next c hclose hbang hdash =>
    refine .keeps .comment ['-', '-'] rfl (.inl rfl) rfl rfl (by simp) fun x hx => ?_
    obtain rfl := Option.some.inj hx
    exact Dashes.none_agree_two hdash hbang hclose

theorem onCommentEndBang_commentStep : CommentStep e .bang at? (e.onCommentEndBang at?) := by
  unfold onCommentEndBang
  split
  · exact .takes .commentEndDash ['-', '-', '!'] rfl rfl rfl rfl (by decide)
  · exact .closes rfl (.inr rfl) rfl
  · exact .ends rfl
  · next c hdash hclose =>
    refine .keeps .comment ['-', '-', '!'] rfl (.inl rfl) rfl rfl (by simp) fun x hx => ?_
    obtain rfl := Option.some.inj hx
    exact Dashes.none_agree_bang hdash hclose

end

/-- Each step in a comment. -/
theorem step_commentStep (h : e.state.inComment = true) :
    CommentStep e e.state.dashes e.cursor.char e.step := by
  unfold step
  dsimp only
  cases hs : e.state <;> rw [hs] at h <;> cases h
  case comment => exact e.onComment_commentStep _
  case commentLessThanSign => exact e.onCommentLessThanSign_commentStep _
  case commentLessThanSignBang => exact e.onCommentLessThanSignBang_commentStep _
  case commentLessThanSignBangDash => exact e.onCommentLessThanSignBangDash_commentStep _
  case commentLessThanSignBangDashDash => exact e.onCommentLessThanSignBangDashDash_commentStep _
  case commentEndDash => exact e.onCommentEndDash_commentStep _
  case commentEnd => exact e.onCommentEnd_commentStep _
  case commentEndBang => exact e.onCommentEndBang_commentStep _

/-! ## The way through a comment -/

/-- The lexer builds the token of a comment that starts at an index, and has this value so far.
`found` are the comments that the text ended in. -/
structure InComment (loc : Locator) (start : Nat) (found : List Diagnostic) (value : List Char)
    (l : Lexer) : Prop where
  locator : l.locator = loc
  token : l.buffer.current = some ⟨.comment, start, String.ofList value⟩
  ready : l.buffer.ready = []
  notHeld : l.buffer.heldBack = none
  running : l.finished = false
  openComments : l.openComments = found

/-- The token of a comment is ready, which stops at an index.  The lexer goes on with the content behind
it, or is at the end of the text. -/
inductive BehindComment (loc : Locator) (start : Nat) (found : List Diagnostic) (value : List Char)
    (stop : Nat) (l : Lexer) : Option (List Char) → Prop
  | closed {rest : List Char} (ready : l.buffer.ready =
        [loc.token ⟨.comment, start, String.ofList value⟩ stop])
      (token : l.buffer.current = none) (running : l.finished = false) (state : l.state = .data)
      (faces : l.Faces stop rest) (openComments : l.openComments = found) :
    BehindComment loc start found value stop l (some rest)
  | unclosed (ready : l.buffer.ready = [loc.token ⟨.comment, start, String.ofList value⟩ stop])
      (token : l.buffer.current = none) (ended : l.finished = true)
      (openComments : l.openComments = found ++ [loc.diagnose .eofInComment (loc.host stop)]) :
    BehindComment loc start found value stop l none

variable {loc : Locator} {found : List Diagnostic} {cs : List Char} {taken : List Token}

namespace InComment

theorem congr (h : l.InComment loc start found value) (hloc : x.locator = l.locator)
    (hbuffer : x.buffer = l.buffer) (hfinished : x.finished = l.finished)
    (hopen : x.openComments = l.openComments) : x.InComment loc start found value where
  locator := hloc.trans h.locator
  token := hbuffer ▸ h.token
  ready := hbuffer ▸ h.ready
  notHeld := hbuffer ▸ h.notHeld
  running := hfinished.trans h.running
  openComments := hopen.trans h.openComments

theorem samePlace (h : l.InComment loc start found value) (hl : x.place = l.place) :
    x.InComment loc start found value :=
  h.congr (congrArg Place.locator hl) (congrArg Place.buffer hl) (congrArg Place.finished hl)
    (congrArg Place.openComments hl)

/-- Anything else than the end of the text may be found wrong in a comment. -/
theorem report (h : l.InComment loc start found value) {cause : Cause} (hc : cause ≠ .eofInComment)
    (hx : x = l ∨ x = l.report cause) :
    x.InComment loc start found value ∧ x.cursor = l.cursor ∧ x.again = l.again := by
  rcases hx with rfl | rfl
  · exact ⟨h, rfl, rfl⟩
  · exact ⟨h.congr rfl rfl rfl (l.openComments_reportAt hc _), rfl, rfl⟩

/-- Text is written to the comment. -/
theorem push (h : l.InComment loc start found value) (w : List Char) :
    (l.push (String.ofList w)).InComment loc start found (value ++ w) := by
  refine ⟨h.locator, ?_, h.ready, h.notHeld, h.running, h.openComments⟩
  rw [String.ofList_append]
  exact l.buffer.push_of_current _ h.token

/-- The comment is closed behind the character at hand. -/
theorem endToken (h : l.InComment loc start found value) :
    l.endToken.buffer.ready =
      [loc.token ⟨.comment, start, String.ofList value⟩ l.cursor.index] ∧
        l.endToken.buffer.current = none := by
  have hfinish := l.buffer.finish_of_current l.locator l.cursor.index h.token
  refine ⟨?_, ?_⟩
  · rw [Lexer.endToken, hfinish, ← h.locator]
    exact congrArg (· ++ _) h.ready
  · rw [Lexer.endToken, hfinish]
    rfl

/-- The text ends in the comment. -/
theorem finish (h : l.InComment loc start found value) :
    l.finish.buffer.ready = [loc.token ⟨.comment, start, String.ofList value⟩ l.cursor.index] ∧
      l.finish.buffer.current = none := by
  have hheld : l.buffer.commitHeldBack l.locator l.cursor.index = l.buffer := by
    rw [TokenBuffer.commitHeldBack, h.notHeld]
  refine ⟨?_, ?_⟩
  · rw [Lexer.finish, hheld, TokenBuffer.ready_commitCurrent, h.token, h.ready, h.locator]
    rfl
  · rw [Lexer.finish, hheld, TokenBuffer.commitCurrent, h.token]
    rfl

/-! ### What a step does -/

section

variable {e' : Lexer} {w : List Char} {s : LexState} {cause : Cause}
  (h : l.InComment loc start found value) (hf : l.Faces i rest)
include h hf

/-- The character is taken. -/
theorem take (hg : Gives rest c back)
    (hstep : l.entered.step = (l.entered.push (String.ofList w)).goto s) :
    l.advanceStep.InComment loc start found (value ++ w) ∧ l.advanceStep.state = s ∧
      l.advanceStep.Faces l.entered.cursor.index back ∧
        l.entered.cursor.index + byteLength back = i + byteLength rest := by
  obtain ⟨hfaces, hplace, hindex⟩ := hf.advance_take hg hstep rfl rfl
  have hwritten : ((l.entered.push (String.ofList w)).goto s).InComment loc start found (value ++ w) :=
    ((h.samePlace hf.entered.2).push w).congr rfl rfl rfl rfl
  exact ⟨hwritten.samePlace hplace, congrArg Place.state hplace, hfaces, hindex⟩

/-- The character is taken again in another state. -/
theorem keep (hstep : l.entered.step = (e'.push (String.ofList w)).reconsume s)
    (he : e' = l.entered ∨ e' = l.entered.report cause) (hcause : cause ≠ .eofInComment) :
    l.advanceStep.InComment loc start found (value ++ w) ∧ l.advanceStep.state = s ∧
      l.advanceStep.Faces i rest := by
  obtain ⟨h', hcursor, -⟩ := (h.samePlace hf.entered.2).report hcause he
  obtain ⟨hfaces, hplace⟩ := hf.advance_keep hstep hcursor rfl
  have hwritten : ((e'.push (String.ofList w)).reconsume s).InComment loc start found (value ++ w) :=
    (h'.push w).congr rfl rfl rfl rfl
  exact ⟨hwritten.samePlace hplace, congrArg Place.state hplace, hfaces⟩

/-- The character closes the comment. -/
theorem close (hg : Gives rest c back) (hstep : l.entered.step = e'.endToken.goto .data)
    (he : e' = l.entered ∨ e' = l.entered.report cause) (hcause : cause ≠ .eofInComment) :
    l.advanceStep.BehindComment loc start found value l.entered.cursor.index (some back) ∧
      l.entered.cursor.index + byteLength back = i + byteLength rest := by
  obtain ⟨h', hcursor, hagain⟩ := (h.samePlace hf.entered.2).report hcause he
  obtain ⟨hfaces, hplace, hindex⟩ := hf.advance_take hg hstep hcursor hagain
  obtain ⟨hready, htoken⟩ := h'.endToken
  rw [hcursor] at hready
  refine ⟨.closed ?_ ?_ ?_ (congrArg Place.state hplace) hfaces ?_, hindex⟩
  · exact (congrArg (fun p => p.buffer.ready) hplace).trans hready
  · exact (congrArg (fun p => p.buffer.current) hplace).trans htoken
  · exact (congrArg Place.finished hplace).trans h'.running
  · exact (congrArg Place.openComments hplace).trans h'.openComments

end

/-- The text is at its end. -/
theorem ends (h : l.InComment loc start found value) (hf : l.Faces i [])
    (hstep : l.entered.step = (l.entered.report .eofInComment).goto .data) :
    l.advanceStep.BehindComment loc start found value i none := by
  obtain ⟨hhand, hsame⟩ := hf.entered
  have h' := h.samePlace hsame
  obtain ⟨hplace, hindex⟩ := hf.advance_atEnd hstep rfl rfl
  obtain ⟨hready, htoken⟩ := h'.finish
  rw [show l.entered.cursor.index = i from hindex] at hready
  refine .unclosed ?_ ?_ (congrArg Place.finished hplace) ?_
  · exact (congrArg (fun p => p.buffer.ready) hplace).trans hready
  · exact (congrArg (fun p => p.buffer.current) hplace).trans htoken
  · rw [← h'.openComments, ← h'.locator, ← hhand.start]
    exact (congrArg Place.openComments hplace).trans l.entered.openComments_report

/-- A step in a comment: the lexer stays in it, with more of it read, or it comes to the end of it, and
that is where the rule says. -/
theorem advance (h : l.InComment loc start found value) (hs : l.state.inComment = true)
    (hf : l.Faces i rest) (hw : Dashes.Within r l.state.dashes value rest) (hr : ¬ StartsAbruptly r) :
    (∃ value' i' rest', l.advanceStep.InComment loc start found value' ∧
      l.advanceStep.state.inComment = true ∧ l.advanceStep.Faces i' rest' ∧
        Dashes.Within r l.advanceStep.state.dashes value' rest' ∧
          i' + byteLength rest' = i + byteLength rest) ∨
    ∃ rest? stop, CommentEnds r value rest? ∧
      l.advanceStep.BehindComment loc start found value stop rest? ∧
        stop + byteLength (rest?.getD []) = i + byteLength rest := by
  obtain ⟨hhand, hsame⟩ := hf.entered
  have hstate : l.entered.state = l.state := congrArg Place.state hsame
  have hstep := step_commentStep (e := l.entered) (hstate ▸ hs)
  rw [hstate] at hstep
  generalize hat : l.entered.cursor.char = at? at hstep
  generalize hy : l.entered.step = y at hstep
  cases hstep with
  | takes s w hx hs' hd hw' hc =>
    obtain ⟨hin, rfl, hfaces, hindex⟩ := h.take hf (hhand.gives hat) (hy.trans hx)
    exact .inl ⟨value ++ w, _, _, hin, hs', hfaces, hw.takes (hhand.gives hat) hd hw' hc, hindex⟩
  | keeps s w hx he hs' hw' hend hc =>
    obtain ⟨hin, rfl, hfaces⟩ := h.keep hf (hy.trans hx) he (by decide)
    refine .inl ⟨value ++ w, i, rest, hin, hs', hfaces, hw.keeps ?_ ?_ hw', rfl⟩
    · rintro rfl
      exact hend (hat.symm.trans hhand.char_nil)
    · intro c back hback
      exact hc c (hat.symm.trans (hhand.char_of_gives hback).1)
  | closes hx he hd =>
    obtain ⟨hbehind, hindex⟩ := h.close hf (hhand.gives hat) (hy.trans hx) he (by decide)
    exact .inr ⟨_, _, hw.closes hr (hhand.gives hat) hd, hbehind, hindex⟩
  | ends hx =>
    obtain ⟨rfl, -, -⟩ := hhand.nil hat
    exact .inr ⟨none, i, hw.ends hr, h.ends hf (hy.trans hx), rfl⟩

/-- From any place in a comment the lexer comes to its end, and that is where the rule says. -/
theorem comesTo_end (h : l.InComment loc start found value) (ht : l.Tracks cs taken)
    (hs : l.state.inComment = true) (hf : l.Faces i rest)
    (hw : Dashes.Within r l.state.dashes value rest) (hr : ¬ StartsAbruptly r) :
    ∃ l' value' rest? stop, l.ComesTo l' ∧ CommentEnds r value' rest? ∧
      l'.BehindComment loc start found value' stop rest? ∧
        stop + byteLength (rest?.getD []) = i + byteLength rest := by
  -- by induction on the steps that are left
  generalize hn : l.potential = n
  induction n using Nat.strongRecOn generalizing l i value rest with
  | ind n ih =>
    subst hn
    rcases h.advance hs hf hw hr with ⟨value', i', rest', h', hs', hf', hw', heq⟩ |
      ⟨rest?, stop, hends, hbehind, heq⟩
    · have hlt := (ht.advanceStep_potential h.running).1
      obtain ⟨l', value'', rest?, stop, hcomes, hrest⟩ :=
        ih _ hlt h' (ht.advanceStep h.running h.ready) hs' hf' hw' rfl
      rw [← heq]
      exact ⟨l', value'', rest?, stop, hcomes.cons h.ready h.running, hrest⟩
    · exact ⟨_, value, rest?, stop, .cons h.ready h.running .here, hends, hbehind, heq⟩

/-- The same behind a dash that a comment starts with. -/
theorem comesTo_end_of_startDash (h : l.InComment loc start found []) (ht : l.Tracks cs taken)
    (hs : l.state = .commentStartDash) (hf : l.Faces i rest) :
    ∃ l' value rest? stop, l.ComesTo l' ∧ CommentEnds ('-' :: rest) value rest? ∧
      l'.BehindComment loc start found value stop rest? ∧
        stop + byteLength (rest?.getD []) = i + byteLength rest := by
  obtain ⟨hhand, hsame⟩ := hf.entered
  have hstep : l.entered.step = l.entered.onCommentStartDash l.entered.cursor.char := by
    simp only [step, show l.entered.state = l.state from congrArg Place.state hsame, hs]
  have hcomes := ComesTo.cons h.ready h.running (.here (l := l.advanceStep))
  have htracks := ht.advanceStep h.running h.ready
  -- the dash is read, and is not written
  have hwithin : Dashes.Within ('-' :: rest) .one [] rest :=
    (Dashes.Within.start _).takes (w := []) (.char rest (by decide)) rfl rfl (by decide)
  have hgives : ∀ {at?}, l.entered.cursor.char = at? → ∀ c back, Gives rest c back → at? = some c :=
    fun hat c back hback => hat.symm.trans (hhand.char_of_gives hback).1
  unfold onCommentStartDash at hstep
  split at hstep
  · next hat =>
    obtain ⟨hin, hs', hfaces, hindex⟩ := h.take (w := []) hf (hhand.gives hat) (by rw [hstep, push_nil])
    obtain ⟨l', value, rest?, stop, hl', hends, hbehind, hstop⟩ := hin.comesTo_end htracks
      (by rw [hs']; rfl) hfaces
      (by rw [hs']; exact hwithin.takes (hhand.gives hat) rfl rfl (by decide))
      (not_startsAbruptly_dash fun c back hback heq => by
        subst heq
        exact absurd (hgives hat _ _ hback) (by decide))
    exact ⟨l', value, rest?, stop, hcomes.trans hl', hends, hbehind, hstop.trans hindex⟩
  · next hat =>
    have hr := (hhand.gives hat).eq_cons (by decide)
    have hbehind := h.close hf (hhand.gives hat) hstep (.inr rfl) (by decide)
    exact ⟨_, _, _, _, hcomes, .abrupt (congrArg _ hr) (.inr rfl), hbehind⟩
  · next hat =>
    obtain ⟨rfl, -, -⟩ := hhand.nil hat
    have hstart : ¬ StartsAbruptly ['-'] := not_startsAbruptly_dash fun c back hback => by cases hback
    exact ⟨_, _, _, i, hcomes, hwithin.ends hstart, h.ends hf hstep, rfl⟩
  · next c hdash hclose hat =>
    obtain ⟨hin, hs', hfaces⟩ := h.keep (w := ['-']) hf hstep (.inl rfl)
      (show Cause.nestedComment ≠ .eofInComment by decide)
    obtain ⟨l', value, rest?, stop, hl', hrest⟩ := hin.comesTo_end htracks (by rw [hs']; rfl) hfaces
      (by
        rw [hs']
        refine hwithin.keeps (fun hnil => ?_) (fun x back hback => ?_) rfl
        · subst hnil
          cases hhand.char_nil.symm.trans hat
        · obtain rfl := Option.some.inj (hgives hat x back hback)
          exact Dashes.none_agree_one hdash)
      (not_startsAbruptly_dash fun x back hback heq => by
        subst heq
        exact hclose (Option.some.inj (hgives hat _ _ hback)))
    exact ⟨l', value, rest?, stop, hcomes.trans hl', hrest⟩

/-- The same from the start of a comment on. -/
theorem comesTo_end_of_start (h : l.InComment loc start found []) (ht : l.Tracks cs taken)
    (hs : l.state = .commentStart) (hf : l.Faces i r) :
    ∃ l' value rest? stop, l.ComesTo l' ∧ CommentEnds r value rest? ∧
      l'.BehindComment loc start found value stop rest? ∧
        stop + byteLength (rest?.getD []) = i + byteLength r := by
  obtain ⟨hhand, hsame⟩ := hf.entered
  have hstep : l.entered.step = l.entered.onCommentStart l.entered.cursor.char := by
    simp only [step, show l.entered.state = l.state from congrArg Place.state hsame, hs]
  have hcomes := ComesTo.cons h.ready h.running (.here (l := l.advanceStep))
  have htracks := ht.advanceStep h.running h.ready
  unfold onCommentStart at hstep
  split at hstep
  · next hat =>
    have hr := (hhand.gives hat).eq_cons (by decide)
    obtain ⟨hin, hs', hfaces, hindex⟩ := h.take (w := []) hf (hhand.gives hat) (by rw [hstep, push_nil])
    obtain ⟨l', value, rest?, stop, hl', hends, hbehind, hstop⟩ :=
      hin.comesTo_end_of_startDash htracks hs' hfaces
    exact ⟨l', value, rest?, stop, hcomes.trans hl', hr ▸ hends, hbehind, hstop.trans hindex⟩
  · next hat =>
    have hr := (hhand.gives hat).eq_cons (by decide)
    have hbehind := h.close hf (hhand.gives hat) hstep (.inr rfl) (by decide)
    exact ⟨_, _, _, _, hcomes, .abrupt hr (.inl rfl), hbehind⟩
  · next hdash hclose =>
    obtain ⟨hin, hs', hfaces⟩ := h.keep (w := []) hf
      (by rw [hstep, push_nil]) (.inl rfl) (show Cause.nestedComment ≠ .eofInComment by decide)
    have hstart : ¬ StartsAbruptly r := not_startsAbruptly fun c back hback => by
      have hat := (hhand.char_of_gives hback).1
      refine ⟨?_, ?_⟩
      · rintro rfl
        exact hdash hat
      · rintro rfl
        exact hclose hat
    obtain ⟨l', value, rest?, stop, hl', hrest⟩ := hin.comesTo_end htracks (by rw [hs']; rfl) hfaces
      (by rw [hs']; exact .start r) hstart
    exact ⟨l', value, rest?, stop, hcomes.trans hl', hrest⟩

end InComment

/-! ## The start of a comment -/

theorem step_data_lt (hs : e.state = .data) (hc : e.cursor.char = some '<') :
    e.step = { e with mark := e.cursor.start, state := .tagOpen } := by
  simp only [step, hs, hc, onData]
  rfl

theorem step_tagOpen_bang (hs : e.state = .tagOpen) (hc : e.cursor.char = some '!') :
    e.step = { e with mark := e.mark, state := .markupDeclarationOpen } := by
  simp only [step, hs, hc, onTagOpen]
  rfl

theorem step_declaration_comment (hs : e.state = .markupDeclarationOpen)
    (hh : e.cursor.here = '-' :: '-' :: r) :
    e.step = ((e.skip 2).startTokenAt .comment e.mark).goto .commentStart := by
  simp only [step, hs, onMarkupDeclarationOpen, hh]
  rfl

/-- In front of `<!--` the lexer starts a comment, where the token before it ends. -/
theorem comesTo_commentStart (hs : l.state = .data) (hr : l.buffer.ready = [])
    (hfin : l.finished = false) (hf : l.Faces i ('<' :: '!' :: '-' :: '-' :: r)) :
    ∃ l', l.ComesTo l' ∧ l'.Faces (i + 4) r ∧ l'.place =
      { l.place with mark := i, state := .commentStart,
                     buffer := l.buffer.startAt l.locator .comment i } := by
  have hsize : '<'.utf8Size = 1 ∧ '!'.utf8Size = 1 := ⟨rfl, rfl⟩
  obtain ⟨hhand, hsame⟩ := hf.entered
  obtain ⟨hf₁, h₁⟩ := advance_goto (m := i) (s := .tagOpen) hf (by decide) <| by
    rw [step_data_lt ((congrArg Place.state hsame).trans hs) (hhand.cons (by decide)).1, hhand.start]
  have hcomes : l.ComesTo l.advanceStep := .cons hr hfin .here
  generalize l.advanceStep = l₁ at hf₁ h₁ hcomes
  obtain ⟨hhand₁, hsame₁⟩ := hf₁.entered
  rw [h₁] at hsame₁
  obtain ⟨hf₂, h₂⟩ := advance_goto (m := i) (s := .markupDeclarationOpen) hf₁ (by decide) <| by
    rw [step_tagOpen_bang (congrArg Place.state hsame₁) (hhand₁.cons (by decide)).1,
      show l₁.entered.mark = i from congrArg Place.mark hsame₁]
  have hcomes₂ : l₁.ComesTo l₁.advanceStep :=
    .cons (congrArg (fun p => p.buffer.ready) h₁ |>.trans hr) ((congrArg Place.finished h₁).trans hfin)
      .here
  generalize l₁.advanceStep = l₂ at hf₂ h₂ hcomes₂
  rw [h₁] at h₂
  obtain ⟨hhand₂, hsame₂⟩ := hf₂.entered
  rw [h₂] at hsame₂
  obtain ⟨hat, -, -⟩ := hhand₂.cons (by decide)
  have hstep := step_declaration_comment (congrArg Place.state hsame₂) hhand₂.here
  obtain ⟨log, hlog⟩ := advanceStep_goesOn (l := l₂) <| .inr <| by
    rw [hstep]
    exact fun hnone => by cases hat.symm.trans hnone
  have hcomes₃ : l₂.ComesTo l₂.advanceStep :=
    .cons (congrArg (fun p => p.buffer.ready) h₂ |>.trans hr) ((congrArg Place.finished h₂).trans hfin)
      .here
  refine ⟨_, (hcomes.trans hcomes₂).trans hcomes₃, ?_, ?_⟩
  · rw [hlog, hstep]
    refine .next hhand₂.again ?_ ?_
    · show l₂.entered.cursor.start + 2 = i + 4
      rw [hhand₂.start]
      omega
    · show l₂.entered.cursor.here.drop 2 = r
      rw [hhand₂.here]
      rfl
  · have hmark : l₂.entered.mark = i := congrArg Place.mark hsame₂
    have hbuffer : l₂.entered.buffer = l.buffer := congrArg Place.buffer hsame₂
    have hlocator : l₂.entered.locator = l.locator := congrArg Place.locator hsame₂
    rw [hlog, hstep]
    calc _ = { l₂.entered.place with state := .commentStart
                                     buffer := l₂.entered.buffer.startAt l₂.entered.locator .comment
                                       l₂.entered.mark } := rfl
      _ = _ := by rw [hsame₂, hbuffer, hlocator, hmark]

/-- Where content is read, no text is held back. -/
theorem Tracks.notHeld (ht : l.Tracks cs taken) (hs : l.state = .data) (hfin : l.finished = false)
    (hf : l.Faces i (c :: rest)) (hc : c ≠ '\r') : l.buffer.heldBack = none := by
  obtain ⟨henters, hbuffer, hstate⟩ := ht.enters hfin
  have hstage := henters.stage
  rw [hstate, hs] at hstage
  rcases hstage with hbuilds | ⟨-, hnone, -⟩
  · exact hbuffer ▸ hbuilds.notHeld
  · cases hnone.symm.trans (hf.entered.1.cons hc).1

/-- The lexer is behind a comment that stops at an index, which was taken: it goes on with the content
there, or the text has ended, which is on record as an open comment. -/
inductive Resumes (l : Lexer) (stop : Nat) (l' : Lexer) : Option (List Char) → Prop
  | content {rest : List Char} (state : l'.state = .data) (ready : l'.buffer.ready = [])
      (token : l'.buffer.current = none) (running : l'.finished = false) (faces : l'.Faces stop rest)
      (openComments : l'.openComments = l.openComments) : Resumes l stop l' (some rest)
  | atEnd (ended : l'.finished = true) (ready : l'.buffer.ready = [])
      (openComments : l'.openComments =
        l.openComments ++ [l.locator.diagnose .eofInComment (l.locator.host stop)]) :
    Resumes l stop l' none

theorem BehindComment.resumes (h : x.BehindComment l.locator start l.openComments value stop rest?)
    (hl : Told { x with buffer := { x.buffer with ready := [] } } l') : l.Resumes stop l' rest? := by
  have hplace := hl.place
  cases h with
  | closed ready token running state faces openComments =>
    exact .content ((congrArg Place.state hplace).trans state)
      (congrArg (fun p => p.buffer.ready) hplace)
      ((congrArg (fun p => p.buffer.current) hplace).trans token)
      ((congrArg Place.finished hplace).trans running) (hl.faces (faces.congr rfl rfl))
      ((congrArg Place.openComments hplace).trans openComments)
  | unclosed ready token ended openComments =>
    exact .atEnd ((congrArg Place.finished hplace).trans ended)
      (congrArg (fun p => p.buffer.ready) hplace)
      ((congrArg Place.openComments hplace).trans openComments)

end Lexer

namespace Template

variable {text : String} {o : Options} {reader : Script.Reader} {ts : List Token} {b : Builder}
  {l : Lexer} {i : Nat} {r : List Char}

/-- Wherever `<!--` is met in content, one comment is read from there on.  It ends where the rule says,
and has the text in between as its value; behind it content is read on, or the text is at its end. -/
theorem comment_isDelimited (h : (startOf text o).Lexes ts b l) (hs : l.state = .data)
    (hr : l.buffer.ready = []) (hfin : l.finished = false)
    (hf : l.Faces i ('<' :: '!' :: '-' :: '-' :: r)) (reader : Script.Reader) :
    ∃ value rest? stop b' l', CommentEnds r value rest? ∧
      stop + byteLength (rest?.getD []) = i + 4 + byteLength r ∧
        (startOf text o).Lexes (ts ++ (locatorOf text o).pending l.buffer.current i ++
          [(locatorOf text o).token ⟨.comment, i, String.ofList value⟩ stop]) b' l' ∧
            l.Resumes stop l' rest? ∧
              (locatorOf text o).token ⟨.comment, i, String.ofList value⟩ stop ∈
                (parse text o reader).comments := by
  have hruns := runs_startOf text o
  have hloc : l.locator = locatorOf text o := h.locator hruns
  have hpending : ∀ t ∈ (locatorOf text o).pending l.buffer.current i, t.kind.closesTag = false := by
    intro t ht
    obtain ⟨p, hp, rfl⟩ := Option.map_eq_some_iff.1 (Option.mem_toList.1 ht)
    exact ((h.tracks hruns).pending hfin).current p hp
  have hheld := (h.tracks hruns).notHeld hs hfin hf (by decide)
  -- the text in front is handed out, and the comment starts
  obtain ⟨l₁, hcomes, hf₁, hplace₁⟩ := Lexer.comesTo_commentStart hs hr hfin hf
  have h₁ := h.goesOn hcomes
  have hbuffer₁ : l₁.buffer = l.buffer.startAt l.locator .comment i :=
    congrArg Lexer.Place.buffer hplace₁
  have hready₁ : l₁.buffer.ready = (locatorOf text o).pending l.buffer.current i := by
    rw [hbuffer₁, TokenBuffer.ready_startAt, hr, hloc]
    rfl
  obtain ⟨b₂, l₂, h₂, htold₂⟩ := h₁.handAll hruns hready₁ hpending
  have hplace₂ := htold₂.place
  have hin : l₂.InComment (locatorOf text o) i l.openComments [] := by
    refine ⟨h₂.locator hruns, ?_, congrArg (fun p => p.buffer.ready) hplace₂, ?_, ?_, ?_⟩
    · rw [show l₂.buffer.current = l₁.buffer.current from congrArg (fun p => p.buffer.current) hplace₂,
        hbuffer₁]
      rfl
    · rw [show l₂.buffer.heldBack = l₁.buffer.heldBack from
        congrArg (fun p => p.buffer.heldBack) hplace₂, hbuffer₁, TokenBuffer.heldBack_startAt, hheld]
    · exact (congrArg Lexer.Place.finished hplace₂).trans
        ((congrArg Lexer.Place.finished hplace₁).trans hfin)
    · exact (congrArg Lexer.Place.openComments hplace₂).trans
        (congrArg Lexer.Place.openComments hplace₁)
  have hstate : l₂.state = .commentStart :=
    (congrArg Lexer.Place.state hplace₂).trans (congrArg Lexer.Place.state hplace₁)
  obtain ⟨l₃, value, rest?, stop, hcomes₃, hends, hbehind, hstop⟩ := hin.comesTo_end_of_start
    (h₂.tracks hruns) hstate (htold₂.faces (hf₁.congr rfl rfl))
  -- the comment is handed out
  have h₃ := h₂.goesOn hcomes₃
  obtain ⟨b', l', h', htold'⟩ := h₃.handAll hruns
    (show l₃.buffer.ready = [_] by cases hbehind with | closed ready | unclosed ready => exact ready)
    (by rintro t ht; obtain rfl := List.mem_singleton.1 ht; rfl)
  refine ⟨value, rest?, stop, b', l', hends, hstop, h', ?_, ?_⟩
  · rw [← hloc] at hbehind
    exact hbehind.resumes htold'
  · exact (mem_parse_of_takes h'.takes reader (by simp)).1 rfl

theorem comment_isDelimited_start : ∃ value rest? stop b' l',
    CommentEnds ['a', '-', '-', '>', 'b'] value rest? ∧
      stop + byteLength (rest?.getD []) = 0 + 4 + byteLength ['a', '-', '-', '>', 'b'] ∧
        (startOf "<!--a-->b" {}).Lexes
          ([] ++ (locatorOf "<!--a-->b" {}).pending none 0 ++
            [(locatorOf "<!--a-->b" {}).token ⟨.comment, 0, String.ofList value⟩ stop]) b' l' ∧
            (startOf "<!--a-->b" {}).lexer.Resumes stop l' rest? ∧
              (locatorOf "<!--a-->b" {}).token ⟨.comment, 0, String.ofList value⟩ stop ∈
                (parse "<!--a-->b" {} Script.parse).comments :=
  comment_isDelimited (.nothing _) rfl rfl rfl (.next rfl rfl rfl) Script.parse

end Template
end TemplateSyntax
