import TemplateSyntax.Proofs.LexerReads
import TemplateSyntax.Proofs.LineLookup

/-! # Lines and what is read

Lines are counted by going over the text once, and line breaks are unified where characters are read.  The
two agree: the line of a character that a lexer has at hand is the line of the template and the number of
line feeds that were read in front of it, and the text has one line more than line feeds are read. -/

namespace TemplateSyntax

open Text (byteLength From Between Gives Scanned)

variable {cs : List Char} {rs : List (Nat × Char)} {i : Nat}

/-- How many of the characters are line feeds. -/
def feeds (rs : List (Nat × Char)) : Nat := rs.countP fun r => r.2 = '\n'

namespace LineIndex

/-- A line starts behind a character that is read if and only if it is read as a line feed. -/
theorem startsFrom_of_gives {tail rest : List Char} {c : Char} (h : Gives tail c rest) (pos : Nat) :
    ∃ size, byteLength tail = size + byteLength rest ∧ startsFrom pos tail =
      (if c = '\n' then [pos + size] else []) ++ startsFrom (pos + size) rest := by
  cases h with
  | pair =>
    refine ⟨2, (Nat.add_assoc 1 1 _).symm, ?_⟩
    rw [startsFrom_cons, startsFrom_cons, if_neg (by simp [Text.EndsLine]), if_pos (.inl rfl)]
    rfl
  | lone hrest =>
    refine ⟨1, rfl, ?_⟩
    rw [startsFrom_cons, if_pos (.inr ⟨rfl, hrest⟩)]
    rfl
  | char rest hc =>
    refine ⟨c.utf8Size, rfl, ?_⟩
    rw [startsFrom_cons]
    simp [Text.EndsLine, hc]

/-- No line starts in plain characters. -/
theorem startsFrom_of_plain {mid : List Char} (h : ∀ c ∈ mid, Lexer.IsPlain c) (pos : Nat)
    (tail : List Char) : startsFrom pos (mid ++ tail) = startsFrom (pos + byteLength mid) tail := by
  induction mid generalizing pos with
  | nil => rfl
  | cons c mid ih =>
    have hc := h c (List.mem_cons_self ..)
    rw [List.cons_append, startsFrom_cons, if_neg, List.nil_append,
      ih fun d hd => h d (List.mem_cons_of_mem c hd), Text.byteLength_cons, Nat.add_assoc]
    simp [Text.EndsLine, hc.notFeed, hc.notReturn]

/-- A text has a line more than line feeds when its line breaks are line feeds. -/
theorem lineCount_ofChars (cs : List Char) :
    (ofChars cs).lineCount = (Text.unifyBreaks cs).count '\n' + 1 := by
  have hstarts : ∀ pos, (startsFrom pos cs).length = (Text.unifyBreaks cs).count '\n' := by
    induction hn : byteLength cs using Nat.strongRecOn generalizing cs with
    | ind n ih =>
      intro pos
      by_cases hcs : cs = []
      · subst hcs
        rfl
      · obtain ⟨c, rest, hgives⟩ := Text.exists_gives hcs
        obtain ⟨size, -, heq⟩ := startsFrom_of_gives hgives pos
        rw [heq, hgives.unifyBreaks, List.length_append, ih _ (hn ▸ hgives.byteLength_lt) rest rfl,
          List.count_cons]
        by_cases hc : c = '\n' <;> simp [hc, Nat.add_comm]
  exact congrArg (· + 1) (hstarts 0)

end LineIndex

/-! ## Texts that are gone through -/

namespace Text.Scanned

/-- The lines up to where a text is gone through start behind the line feeds that were read. -/
theorem exists_starts (h : Scanned cs rs i) : ∃ tail starts, From cs i tail ∧
    LineIndex.startsFrom 0 cs = starts ++ LineIndex.startsFrom i tail ∧ (∀ e ∈ starts, e ≤ i) ∧
      starts.length = feeds rs := by
  induction h with
  | start => exact ⟨cs, [], .start cs, rfl, by simp, rfl⟩
  | @read rs i j c tail rest _ hi hg hj ih =>
    obtain ⟨tail', starts, hfrom, heq, hle, hlength⟩ := ih
    obtain rfl := hfrom.unique hi
    obtain ⟨size, hsize, hstarts⟩ := LineIndex.startsFrom_of_gives hg i
    have hj' : j = i + size := by
      have hi := hi.size
      have hj := hj.size
      omega
    subst hj'
    refine ⟨rest, starts ++ (if c = '\n' then [i + size] else []), hj, ?_, fun e he => ?_, ?_⟩
    · rw [heq, hstarts, List.append_assoc]
    · rcases List.mem_append.1 he with he | he
      · exact Nat.le_trans (hle e he) (Nat.le_add_right _ _)
      · split at he
        · exact Nat.le_of_eq (List.mem_singleton.1 he)
        · simp at he
    · rw [List.length_append, hlength, feeds, feeds, List.countP_append]
      by_cases hc : c = '\n' <;> simp [hc]
  | @jump rs i j mid _ hb hmid ih =>
    obtain ⟨tail, starts, hfrom, heq, hle, hlength⟩ := ih
    obtain ⟨rfl, post, hpost⟩ := hb
    obtain rfl := hfrom.unique hpost
    refine ⟨post, starts, hpost.append, ?_, fun e he => ?_, hlength⟩
    · rw [heq, LineIndex.startsFrom_of_plain hmid]
    · exact Nat.le_trans (hle e he) (Nat.le_add_right _ _)

/-- The line of a position is the number of line feeds that were read in front of it. -/
theorem line_eq (h : Scanned cs rs i) : ((LineIndex.ofChars cs).lineCol i).line = feeds rs := by
  obtain ⟨tail, starts, hfrom, heq, hle, hlength⟩ := h.exists_starts
  rw [LineIndex.lineCol_eq_locate, Nat.min_eq_left hfrom.le_size, heq,
    LineIndex.locate_append (fun x hx => LineIndex.lt_of_mem_startsFrom hx),
    LineIndex.locate_of_forall_le hle, ← hlength]
  exact Nat.zero_add _

/-- At the end of the text all its line breaks were read. -/
theorem lineCount_eq (h : Scanned cs rs (byteLength cs)) :
    (LineIndex.ofChars cs).lineCount = feeds rs + 1 := by
  obtain ⟨tail, starts, hfrom, heq, -, hlength⟩ := h.exists_starts
  have hnil : tail = [] := byteLength_eq_zero.1 (by have := hfrom.size; omega)
  subst hnil
  rw [LineIndex.lineCount, LineIndex.ofChars, ← hlength, heq]
  simp [LineIndex.startsFrom]

/-- What was read is a character of the text, where a line break counts as a line feed. -/
theorem gives (h : Scanned cs rs i) :
    ∀ r ∈ rs, ∃ tail rest, From cs r.1 tail ∧ Gives tail r.2 rest := by
  induction h with
  | start => simp
  | @read rs i j c tail rest _ hi hg hj ih =>
    intro r hr
    rcases List.mem_append.1 hr with hr | hr
    · exact ih r hr
    · obtain rfl := List.mem_singleton.1 hr
      exact ⟨tail, rest, hi, hg⟩
  | jump _ _ _ ih => exact ih

end Text.Scanned

/-! ## Pulls -/

namespace Lexer

/-- The lines of a text are those that its pulls read. -/
structure ReadsLines (cs : List Char) (origin : Origin) (ls : Nat → Lexer) : Prop where
  /-- At a step, the line of the character at hand is the line of the template and the number of line
  feeds that were read in front of it. -/
  line : ∀ n front x, front ++ [x] <+: stepsBefore ls n →
    ((Locator.ofChars cs origin).position
        ((Locator.ofChars cs origin).host x.entered.cursor.start)).line =
      origin.line + feeds ((readBy front).filter fun r => r.1 < x.entered.cursor.start)
  /-- What is read is a character of the text, where a line break counts as a line feed. -/
  reads : ∀ n, ∀ r ∈ readBy (stepsBefore ls n), ∃ tail rest, From cs r.1 tail ∧ Gives tail r.2 rest
  /-- Where a step moves the cursor on there are no line breaks. -/
  jumps : ∀ n, ∀ x ∈ stepsBefore ls n, ∃ mid,
    Between cs x.entered.cursor.index mid x.advanceStep.cursor.index ∧ '\n' ∉ mid ∧ '\r' ∉ mid
  /-- When the text is at its end there is a line more than line feeds that were read. -/
  total : ∀ n, (ls n).pull.1 = none →
    (LineIndex.ofChars cs).lineCount = feeds (readBy (stepsBefore ls (n + 1))) + 1

theorem StepAt.line {origin : Origin} {front : List Lexer} {x : Lexer} (h : StepAt cs front x) :
    ((Locator.ofChars cs origin).position
        ((Locator.ofChars cs origin).host x.entered.cursor.start)).line =
      origin.line + feeds ((readBy front).filter fun r => r.1 < x.entered.cursor.start) := by
  have hrelative : (Locator.ofChars cs origin).relative
      ((Locator.ofChars cs origin).host x.entered.cursor.start) = x.entered.cursor.start :=
    Nat.add_sub_cancel_left ..
  rw [Locator.position, hrelative, ← h.scanned.line_eq]
  rfl

theorem PullsFrom.readsLines {origin : Origin} {tracing : Bool} {ls : Nat → Lexer}
    (h : PullsFrom (ofChars cs (Locator.ofChars cs origin) tracing) ls) :
    ReadsLines cs origin ls := by
  have hwalked := (Walked.carried cs).pulls h (tracks_start cs origin tracing)
    (.ofChars cs (Locator.ofChars cs origin) tracing)
  refine ⟨fun n front x hx => ((hwalked n).2.steps front x hx).line,
    fun n => (hwalked n).2.scanned.gives, fun n x hx => ?_, fun n hn => ?_⟩
  · obtain ⟨front, back, hsplit⟩ := List.append_of_mem hx
    obtain ⟨mid, hmid, hplain⟩ := ((hwalked n).2.steps front x
      ⟨back, by rw [hsplit, List.append_assoc]; rfl⟩).jumps
    exact ⟨mid, hmid, fun h => (hplain _ h).notFeed rfl, fun h => (hplain _ h).notReturn rfl⟩
  · obtain ⟨⟨taken, htracks⟩, hw⟩ := hwalked n
    have hbehind := (Walked.carried cs).pull htracks hw
    have hpull := htracks.pull
    rw [stepsBefore_succ]
    generalize (ls n).pull = handed at hn hbehind hpull
    cases hpull with
    | token => cases hn
    | ended _ hf _ =>
      have hscanned := hbehind.scanned
      rw [hbehind.ended hf] at hscanned
      exact hscanned.lineCount_eq

end Lexer

namespace Template

open Lexer (PullsFrom ReadsLines)

/-- Counting lines and unifying line breaks agree.  A text has a line more than line feeds when its line
breaks are line feeds; and however the lexer of a template is led on between two pulls, the tree builder
being one who does so, at each step the line of the character at hand is the line of the template and the
number of line feeds that were read in front of it. -/
theorem lines_agree (text : String) (o : Options) :
    (LineIndex.ofChars text.toList).lineCount = (Text.unifyBreaks text.toList).count '\n' + 1 ∧
      (∀ ls, PullsFrom (startOf text o).lexer ls → ReadsLines text.toList o.origin ls) ∧
      PullsFrom (startOf text o).lexer (fun n => (Builder.afterPull^[n] (startOf text o)).lexer) :=
  ⟨LineIndex.lineCount_ofChars _, fun _ h => h.readsLines, pullsFrom_startOf text o⟩

/-- All three line breaks, the first one right behind `<!--`, are read. -/
theorem lines_agree_mixedBreaks :
    PullsFrom (startOf "<!--\r\n-->\n\r" {}).lexer
        (fun n => (Builder.afterPull^[n] (startOf "<!--\r\n-->\n\r" {})).lexer) ∧
      ReadsLines "<!--\r\n-->\n\r".toList ⟨0, 1, 0⟩
        (fun n => (Builder.afterPull^[n] (startOf "<!--\r\n-->\n\r" {})).lexer) ∧
      (LineIndex.ofChars "<!--\r\n-->\n\r".toList).lineCount = 4 ∧
      feeds (Lexer.readBy (Lexer.stepsBefore
        (fun n => (Builder.afterPull^[n] (startOf "<!--\r\n-->\n\r" {})).lexer) 4)) = 3 := by
  obtain ⟨-, hlines, hbuilder⟩ := lines_agree "<!--\r\n-->\n\r" {}
  exact ⟨hbuilder, hlines _ hbuilder, by decide +kernel, by decide +kernel⟩

end Template
end TemplateSyntax
