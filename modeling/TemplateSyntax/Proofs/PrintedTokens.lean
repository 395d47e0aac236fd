import TemplateSyntax.Proofs.LexerYields
import TemplateSyntax.Proofs.Printed

/-! # The tokens of printed markup

The lexer yields the tokens of a forest from its printed text.  Text that is being built when a tag
or the end of the text comes is handed out first. -/

namespace TemplateSyntax

open Text (byteLength bytes)

/-! ## Tokens that are being built -/

/-- The token that is being built, when it stops before an index. -/
def Locator.pending (l : Locator) (t : Option PendingToken) (stop : Nat) : List Token :=
  (t.map fun t => l.token t stop).toList

namespace TokenBuffer

variable (b : TokenBuffer) (l : Locator) (k : TokenKind) (i : Nat) (s : String)

theorem heldBack_commitCurrent : (b.commitCurrent l i).heldBack = b.heldBack := by
  unfold commitCurrent
  split <;> rfl

theorem ready_commitCurrent :
    (b.commitCurrent l i).ready = b.ready ++ l.pending b.current i := by
  unfold commitCurrent
  split
  · next t ht => rw [ht]; rfl
  · next ht => rw [ht]; exact (List.append_nil _).symm

theorem ready_startAt : (b.startAt l k i).ready = b.ready ++ l.pending b.current i :=
  b.ready_commitCurrent l i

theorem heldBack_startAt : (b.startAt l k i).heldBack = b.heldBack := b.heldBack_commitCurrent l i

theorem push_of_current {t : PendingToken} (h : b.current = some t) :
    (b.push s).current = some { t with value := t.value ++ s } := by
  simp [push, h]

theorem finish_of_current {t : PendingToken} (h : b.current = some t) :
    b.finish l i = { b with current := none }.handOver l t i := by
  simp [finish, h]

end TokenBuffer

namespace Lexer

open Forest

theorem isSound_of_ascii {c : Char} (h : 0x20 ≤ c.toNat) (h' : c.toNat < 0x7f) : IsSound c := by
  refine ⟨?_, ?_⟩
  · rintro rfl
    exact absurd h (by decide)
  · have hnull : ¬ c.toNat = 0 := by omega
    have hcontrol : ¬ CharClass.isDisallowedControl c.toNat = true := by
      simp only [CharClass.isDisallowedControl, CharClass.isControl, Bool.and_eq_true,
        Bool.or_eq_true, decide_eq_true_eq]
      omega
    have hnon : ¬ CharClass.isNoncharacter c.toNat = true := by
      simp only [CharClass.isNoncharacter, Bool.and_eq_true, Bool.or_eq_true, decide_eq_true_eq,
        beq_iff_eq]
      omega
    rw [Cursor.inputFault?, if_neg hnull, if_neg hcontrol, if_neg hnon]

theorem isSound_of_isNameChar {c : Char} (h : isNameChar c = true) : IsSound c := by
  rcases isNameChar_ascii h with h | h
  · have hbounds := toNat_of_isLower h
    exact isSound_of_ascii (by omega) (by omega)
  · exact isSound_of_ascii (by omega) (by omega)

namespace View.Yields

variable {cs rest : List Char} {l : Locator} {m i : Nat} {c : Char} {t : PendingToken}
  {tok : Option PendingToken} {ts : List Token} {s s' : LexState} {k : TokenKind}

/-! ## Kinds of steps -/

/-- A character more for the token that is being built. -/
theorem push (hc : IsSound c)
    (hstep : ∀ e : Lexer, e.state = s → e.cursor.char = some c → e.step = (e.pushChar c).goto s)
    (h : Yields cs l ⟨s, m, i + c.utf8Size, rest,
      some { t with value := t.value ++ String.singleton c }, []⟩ ts) :
    Yields cs l ⟨s, m, i, c :: rest, some t, []⟩ ts := by
  refine .take rfl rfl hc (fun e he => ?_) h
  refine ⟨e.buffer.push (String.singleton c), ?_, he.notHeld, ?_, he.ready⟩
  · rw [hstep e he.state he.char, ← show e.mark = m from he.mark]
    rfl
  · exact e.buffer.push_of_current _ he.token

/-- Some characters more. -/
theorem pushAll {w : List Char} (hw : ∀ c ∈ w, IsSound c)
    (hstep : ∀ c ∈ w, ∀ e : Lexer, e.state = s → e.cursor.char = some c →
      e.step = (e.pushChar c).goto s)
    (h : Yields cs l ⟨s, m, i + byteLength w, rest,
      some { t with value := t.value ++ String.ofList w }, []⟩ ts) :
    Yields cs l ⟨s, m, i, w ++ rest, some t, []⟩ ts := by
  induction w generalizing i t with
  | nil => simpa using h
  | cons c w ih =>
    refine push (hw c (List.mem_cons_self ..)) (hstep c (List.mem_cons_self ..)) ?_
    refine ih (fun x hx => hw x (List.mem_cons_of_mem c hx))
      (fun x hx => hstep x (List.mem_cons_of_mem c hx)) ?_
    have hvalue : t.value ++ String.singleton c ++ String.ofList w =
        t.value ++ String.ofList (c :: w) := by
      rw [String.append_assoc]
      congr 1
      exact String.toList_inj.1 (by simp)
    rw [hvalue]
    simpa [Nat.add_assoc] using h

/-- A token starts with a character, which is then taken in another state. -/
theorem start (hc : IsSound c)
    (hstep : ∀ e : Lexer, e.state = s → e.cursor.char = some c →
      e.step = (e.startToken k).reconsume s')
    (h : Yields cs l ⟨s', m, i, c :: rest, some ⟨k, i, ""⟩, l.pending tok i⟩ ts) :
    Yields cs l ⟨s, m, i, c :: rest, tok, []⟩ ts := by
  refine .keep rfl rfl hc (fun e he => ?_) h
  refine ⟨e.buffer.startAt l k i, ?_, ?_, rfl, ?_⟩
  · rw [hstep e he.state he.char, ← show e.mark = m from he.mark,
      ← show e.cursor.start = i from he.start, ← he.locator]
    rfl
  · rw [TokenBuffer.heldBack_startAt, he.notHeld]
  · rw [TokenBuffer.ready_startAt, he.ready, he.token]
    rfl

/-- A token starts with a character, and may have it already. -/
theorem startWith (k : TokenKind) (s' : LexState) (value : String) (hc : IsSound c)
    (hstep : ∀ e : Lexer, e.state = s → e.cursor.char = some c → e.buffer.current = tok →
      e.step = ((e.startToken k).push value).goto s')
    (h : Yields cs l ⟨s', m, i + c.utf8Size, rest, some ⟨k, i, value⟩, l.pending tok i⟩ ts) :
    Yields cs l ⟨s, m, i, c :: rest, tok, []⟩ ts := by
  refine .take rfl rfl hc (fun e he => ?_) h
  refine ⟨(e.buffer.startAt l k i).push value, ?_, ?_, ?_, ?_⟩
  · rw [hstep e he.state he.char he.token, ← show e.mark = m from he.mark,
      ← show e.cursor.start = i from he.start, ← he.locator]
    rfl
  · exact (e.buffer.heldBack_startAt l k i).trans he.notHeld
  · rw [TokenBuffer.push_of_current (t := ⟨k, i, ""⟩) _ _ rfl, String.empty_append]
  · exact (e.buffer.ready_startAt l k i).trans (by rw [he.ready, he.token]; rfl)

/-- A character that is a token. -/
theorem whole (k : TokenKind) (s' : LexState) (hc : IsSound c)
    (hstep : ∀ e : Lexer, e.state = s → e.cursor.char = some c →
      e.step = (e.oneCharToken k).goto s')
    (h : Yields cs l ⟨s', m, i + c.utf8Size, rest, none,
      l.pending tok i ++ [l.token ⟨k, i, ""⟩ (i + c.utf8Size)]⟩ ts) :
    Yields cs l ⟨s, m, i, c :: rest, tok, []⟩ ts := by
  refine .take rfl rfl hc (fun e he => ?_) h
  refine ⟨(e.buffer.startAt l k i).finish l (i + c.utf8Size), ?_, ?_, ?_, ?_⟩
  · rw [hstep e he.state he.char, ← show e.mark = m from he.mark,
      ← show e.cursor.start = i from he.start, ← he.locator,
      ← show e.cursor.index = e.cursor.start + c.utf8Size from he.start ▸ he.here]
    rfl
  · rw [TokenBuffer.finish_of_current (t := ⟨k, i, ""⟩) _ _ _ rfl]
    exact (e.buffer.heldBack_startAt l k i).trans he.notHeld
  · rw [TokenBuffer.finish_of_current (t := ⟨k, i, ""⟩) _ _ _ rfl]
    rfl
  · rw [TokenBuffer.finish_of_current (t := ⟨k, i, ""⟩) _ _ _ rfl]
    exact congrArg (· ++ _) ((e.buffer.ready_startAt l k i).trans (by rw [he.ready, he.token]; rfl))

/-- The last character of a token. -/
theorem finish (s' : LexState) (hc : IsSound c)
    (hstep : ∀ e : Lexer, e.state = s → e.cursor.char = some c → e.step = e.endToken.goto s')
    (h : Yields cs l ⟨s', m, i + c.utf8Size, rest, none, [l.token t (i + c.utf8Size)]⟩ ts) :
    Yields cs l ⟨s, m, i, c :: rest, some t, []⟩ ts := by
  refine .take rfl rfl hc (fun e he => ?_) h
  have hfinish := e.buffer.finish_of_current l (i + c.utf8Size) he.token
  refine ⟨e.buffer.finish l (i + c.utf8Size), ?_, ?_, ?_, ?_⟩
  · rw [hstep e he.state he.char, ← show e.mark = m from he.mark, ← he.locator,
      ← show e.cursor.index = i + c.utf8Size from he.here]
    rfl
  · rw [hfinish]
    exact he.notHeld
  · rw [hfinish]
    rfl
  · rw [hfinish]
    exact congrArg (· ++ _) he.ready

end View.Yields

/-! ## Steps on names and values -/

section

variable {e : Lexer} {c : Char}

theorem push_empty (l : Lexer) : l.push "" = l := by
  simp [Lexer.push, TokenBuffer.push]

theorem step_tagOpen (hs : e.state = .tagOpen) (hc : e.cursor.char = some c)
    (h : c.isLower = true) : e.step = (e.startTokenAt .tagOpen e.mark).reconsume .tagName := by
  have halpha : c.isAlpha = true := isAlpha_of_isLower h
  simp only [Lexer.step, hs, hc, onTagOpen]
  split
  · next heq => cases heq; exact absurd h (by decide)
  · next heq => cases heq; exact absurd h (by decide)
  · next heq => cases heq; exact absurd h (by decide)
  · next heq => cases heq; rw [if_pos halpha]
  · next heq => cases heq

theorem step_endTagOpen (hs : e.state = .endTagOpen) (hc : e.cursor.char = some c)
    (h : c.isLower = true) : e.step = (e.startTokenAt .endTagOpen e.mark).reconsume .tagName := by
  have halpha : c.isAlpha = true := isAlpha_of_isLower h
  simp only [Lexer.step, hs, hc, onEndTagOpen]
  split
  · next heq => cases heq; exact absurd h (by decide)
  · next heq => cases heq; rw [if_pos halpha]
  · next heq => cases heq

theorem step_tagName (hs : e.state = .tagName) (hc : e.cursor.char = some c)
    (h : isNameChar c = true) : e.step = (e.pushChar c).goto .tagName := by
  simp only [Lexer.step, hs, hc, onTagName]
  split
  · next heq => cases heq; exact absurd h (by decide)
  · next heq => cases heq; exact absurd h (by decide)
  · next heq => cases heq
  · next heq => cases heq; rw [if_neg (by simp [isBlank_of_isNameChar h])]

theorem step_beforeAttributeName (hs : e.state = .beforeAttributeName)
    (hc : e.cursor.char = some c) (h : isNameChar c = true) :
    e.step = (e.startToken .identifier).reconsume .attributeName := by
  simp only [Lexer.step, hs, hc, onBeforeAttributeName]
  split
  · next heq => cases heq; exact absurd h (by decide)
  · next heq => cases heq; exact absurd h (by decide)
  · next heq => cases heq
  · next heq => cases heq; exact absurd h (by decide)
  · next heq => cases heq; rw [if_neg (by simp [isBlank_of_isNameChar h])]

theorem step_attributeName (hs : e.state = .attributeName) (hc : e.cursor.char = some c)
    (h : isNameChar c = true) : e.step = (e.pushChar c).goto .attributeName := by
  have hquote : (c == '"' || c == '\'' || c == '<') = false := by
    simp only [Bool.or_eq_false_iff, beq_eq_false_iff_ne]
    exact ⟨⟨ne_of_isNameChar h (by decide), ne_of_isNameChar h (by decide)⟩,
      ne_of_isNameChar h (by decide)⟩
  simp only [Lexer.step, hs, hc, onAttributeName]
  split
  · next heq => cases heq; exact absurd h (by decide)
  · next heq => cases heq; exact absurd h (by decide)
  · next heq => cases heq
  · next heq => cases heq; exact absurd h (by decide)
  · next heq =>
    cases heq
    rw [if_neg (by simp [isBlank_of_isNameChar h]), if_neg (by simp [hquote])]

theorem step_quoted (hs : e.state = .attributeValueDoubleQuoted) (hc : e.cursor.char = some c)
    (hquote : c ≠ '"') (hamp : c ≠ '&') :
    e.step = (e.pushChar c).goto .attributeValueDoubleQuoted := by
  simp only [Lexer.step, hs, hc, onAttributeValueQuoted]
  rw [if_neg (by simpa using hquote), if_neg (by simpa using hamp)]

/-- A character of a text joins a token of its kind, or starts one. -/
theorem step_data (hs : e.state = .data) (hc : e.cursor.char = some c) (hlt : c ≠ '<')
    (hamp : c ≠ '&') (hbrace : c ≠ '\x7b') :
    e.step = (e.append (textKind c) (String.singleton c) e.cursor.start).goto .data := by
  rw [Lexer.step, hs, hc]
  show e.onData (some c) = _
  rw [onData]
  · rfl
  · exact fun heq => hlt heq
  · exact fun heq => hamp heq
  · exact fun heq => hbrace heq

end

/-! ## Names and values -/

namespace View.Yields

variable {cs rest : List Char} {l : Locator} {m i : Nat} {c : Char} {t : PendingToken}
  {tok : Option PendingToken} {ts : List Token}

theorem isSound_of_mem_name {w : List Char} (hw : w.all isNameChar = true) :
    ∀ c ∈ w, IsSound c := fun c hc => isSound_of_isNameChar (List.all_eq_true.1 hw c hc)

/-- `<` may start a tag. -/
theorem openTag (h : Yields cs l ⟨.tagOpen, i, i + 1, rest, tok, []⟩ ts) :
    Yields cs l ⟨.data, m, i, '<' :: rest, tok, []⟩ ts := by
  refine .take rfl rfl (isSound_of_ascii (by decide) (by decide)) (fun e he => ?_) h
  have hs : e.state = .data := he.state
  have hi : e.cursor.start = i := he.start
  refine ⟨e.buffer, ?_, he.notHeld, he.token, he.ready⟩
  simp only [Lexer.step, hs, he.char, onData, markHere, goto, hi]

/-- A slash behind it makes it an end tag. -/
theorem openEndTag (h : Yields cs l ⟨.endTagOpen, m, i + 1, rest, tok, []⟩ ts) :
    Yields cs l ⟨.tagOpen, m, i, '/' :: rest, tok, []⟩ ts := by
  refine .take rfl rfl (isSound_of_ascii (by decide) (by decide)) (fun e he => ?_) h
  have hs : e.state = .tagOpen := he.state
  refine ⟨e.buffer, ?_, he.notHeld, he.token, he.ready⟩
  simp only [Lexer.step, hs, he.char, onTagOpen, goto]
  rw [← show e.mark = m from he.mark]

/-- The name of a tag, whose token starts where the tag does. -/
theorem tagName {s : LexState} {k : TokenKind} {name : String} (hname : isName name = true)
    (hstep : ∀ (e : Lexer) (c : Char), e.state = s → e.cursor.char = some c → c.isLower = true →
      e.step = (e.startTokenAt k e.mark).reconsume .tagName)
    (h : Yields cs l ⟨.tagName, m, i + bytes name, rest, some ⟨k, m, name⟩, []⟩ ts) :
    Yields cs l ⟨s, m, i, name.toList ++ rest, tok, []⟩ (l.pending tok m ++ ts) := by
  obtain ⟨hall, c, w, hcw, hc⟩ := isName_eq hname
  have hrest : Yields cs l ⟨.tagName, m, i, name.toList ++ rest, some ⟨k, m, ""⟩, []⟩ ts := by
    refine pushAll (isSound_of_mem_name hall) (fun c hc e hs hchar =>
      step_tagName hs hchar (List.all_eq_true.1 hall c hc)) ?_
    rw [String.empty_append, String.ofList_toList]
    exact h
  rw [hcw] at hrest ⊢
  refine .keep rfl rfl (isSound_of_isNameChar (isNameChar_of_isLower hc)) (fun e he => ?_)
    (.handAll rfl hrest)
  refine ⟨e.buffer.startAt l k m, ?_, ?_, rfl, ?_⟩
  · rw [hstep e c he.state he.char hc, ← show e.mark = m from he.mark, ← he.locator]
    rfl
  · rw [TokenBuffer.heldBack_startAt, he.notHeld]
  · rw [TokenBuffer.ready_startAt, he.ready, he.token]
    rfl

/-- What a lexer yields behind the name or a value in a tag. -/
def InTag (cs : List Char) (l : Locator) (i : Nat) (ahead : List Char) (ts : List Token) : Prop :=
  ∀ s m tok, s = .tagName ∨ s = .afterAttributeValueQuoted →
    Yields cs l ⟨s, m, i, ahead, tok, []⟩ (l.pending tok i ++ ts)

/-- What a lexer yields in content, behind a tag. -/
def BehindTag (cs : List Char) (l : Locator) (i : Nat) (ahead : List Char) (ts : List Token) :
    Prop :=
  ∀ m, Yields cs l ⟨.data, m, i, ahead, none, []⟩ ts

/-- What a lexer yields in content, when any text ends here. -/
def BehindText (cs : List Char) (l : Locator) (i : Nat) (ahead : List Char) (ts : List Token) :
    Prop :=
  ∀ m tok, Yields cs l ⟨.data, m, i, ahead, tok, []⟩ (l.pending tok i ++ ts)

theorem BehindText.behindTag {ahead : List Char} (h : BehindText cs l i ahead ts) :
    BehindTag cs l i ahead ts := fun m => h m none

/-- The end of a tag. -/
theorem InTag.close (h : BehindTag cs l (i + 1) rest ts) :
    InTag cs l i ('>' :: rest) (tagTokens l i [] ++ ts) := by
  intro s m tok hs
  refine whole .tagClose .data (isSound_of_ascii (by decide) (by decide))
    (fun e he hc => ?_) ?_
  · rcases hs with rfl | rfl
    · simp only [Lexer.step, he, hc, onTagName]
    · simp only [Lexer.step, he, hc, onAfterAttributeValueQuoted]
  · rw [← List.append_assoc]
    exact .handAll rfl (h m)

/-- An attribute. -/
theorem InTag.attribute {a : String × String} (hname : isName a.1 = true)
    (hvalue : isValue a.2 = true) (h : InTag cs l (attributeStop i a) rest ts) :
    InTag cs l i (printAttribute a ++ rest) (attributeTokens l i a ++ ts) := by
  obtain ⟨hall, c, w, hcw, hc⟩ := isName_eq hname
  have hplain := isValue_eq hvalue
  have hquote : IsSound '"' := isSound_of_ascii (by decide) (by decide)
  -- from back to front: the closing quote, the value, the opening quote
  have hclose : ∀ m, Yields cs l ⟨.attributeValueDoubleQuoted, m, quoteAt i a + 1 + bytes a.2,
      '"' :: rest, some ⟨.literal, quoteAt i a, a.2⟩, []⟩ (valueToken l (quoteAt i a) a :: ts) := by
    intro m
    refine finish .afterAttributeValueQuoted hquote (fun e hs hchar => ?_) ?_
    · simp only [Lexer.step, hs, hchar, onAttributeValueQuoted]
      rfl
    · exact .hand rfl (h _ m none (.inr rfl))
  have hvalue : ∀ m, Yields cs l ⟨.attributeValueDoubleQuoted, m, quoteAt i a + 1,
      a.2.toList ++ '"' :: rest, some ⟨.literal, quoteAt i a, ""⟩, []⟩
      (valueToken l (quoteAt i a) a :: ts) := by
    intro m
    refine pushAll (fun c hc => ?_) (fun c hc e hs hchar => ?_) ?_
    · exact (hplain c hc).1
    · exact step_quoted hs hchar (hplain c hc).2.1 (hplain c hc).2.2
    · rw [String.empty_append, String.ofList_toList]
      exact hclose m
  have hopen : ∀ m, Yields cs l ⟨.beforeAttributeValue, m, quoteAt i a,
      '"' :: (a.2.toList ++ '"' :: rest), none, []⟩ (valueToken l (quoteAt i a) a :: ts) := by
    intro m
    refine startWith .literal .attributeValueDoubleQuoted "" hquote
      (fun e hs hchar _ => ?_) (hvalue m)
    simp only [Lexer.step, hs, hchar, onBeforeAttributeValue]
    rw [push_empty]
  have hequals : ∀ m, Yields cs l ⟨.attributeName, m, i + 1 + bytes a.1,
      '=' :: '"' :: (a.2.toList ++ '"' :: rest), some ⟨.identifier, i + 1, a.1⟩, []⟩
      ((attributeTokens l i a).tail ++ ts) := by
    intro m
    refine whole .association .beforeAttributeValue
      (isSound_of_ascii (by decide) (by decide)) (fun e hs hchar => ?_) ?_
    · simp only [Lexer.step, hs, hchar, onAttributeName]
    · exact .hand rfl (.hand rfl (hopen m))
  have hkey : ∀ m, Yields cs l ⟨.attributeName, m, i + 1,
      a.1.toList ++ '=' :: '"' :: (a.2.toList ++ '"' :: rest), some ⟨.identifier, i + 1, ""⟩, []⟩
      ((attributeTokens l i a).tail ++ ts) := by
    intro m
    refine pushAll (isSound_of_mem_name hall) (fun c hc e hs hchar =>
      step_attributeName hs hchar (List.all_eq_true.1 hall c hc)) ?_
    rw [String.empty_append, String.ofList_toList]
    exact hequals m
  have hbefore : ∀ m, Yields cs l ⟨.beforeAttributeName, m, i + 1,
      a.1.toList ++ '=' :: '"' :: (a.2.toList ++ '"' :: rest), some ⟨.whitespace, i, " "⟩, []⟩
      (attributeTokens l i a ++ ts) := by
    intro m
    have hname := hkey m
    rw [hcw] at hname ⊢
    have hc' := isNameChar_of_isLower hc
    exact start (isSound_of_isNameChar hc')
      (fun e hs hchar => step_beforeAttributeName hs hchar hc') (.hand rfl hname)
  -- the space
  intro s m tok hs
  have hahead : printAttribute a ++ rest =
      ' ' :: (a.1.toList ++ '=' :: '"' :: (a.2.toList ++ '"' :: rest)) := by
    simp [printAttribute]
  rw [hahead]
  refine startWith .whitespace .beforeAttributeName " " (isSound_of_ascii (by decide) (by decide))
    (fun e he hchar _ => ?_) (.handAll rfl (hbefore m))
  rcases hs with rfl | rfl
  · simp only [Lexer.step, he, hchar, onTagName]
    rfl
  · simp only [Lexer.step, he, hchar, onAfterAttributeValueQuoted]
    rfl

/-- The attributes of a tag, and its end. -/
theorem InTag.attributes {as : List (String × String)}
    (has : ∀ a ∈ as, isName a.1 = true ∧ isValue a.2 = true)
    (h : BehindTag cs l (i + byteLength (printAttributes as) + 1) rest ts) :
    InTag cs l i (printAttributes as ++ '>' :: rest) (tagTokens l i as ++ ts) := by
  induction as generalizing i with
  | nil => exact .close h
  | cons a as ih =>
    obtain ⟨ha, has⟩ := List.forall_mem_cons.1 has
    have hstop : byteLength (printAttributes (a :: as)) =
        byteLength (printAttribute a) + byteLength (printAttributes as) := by
      simp [printAttributes]
    have hahead : printAttributes (a :: as) ++ '>' :: rest =
        printAttribute a ++ (printAttributes as ++ '>' :: rest) := by
      simp [printAttributes]
    rw [hstop, ← Nat.add_assoc, add_printAttribute] at h
    rw [hahead, tagTokens, List.append_assoc]
    exact .attribute ha.1 ha.2 (ih has h)

/-! ## Texts -/

/-- A character of a text in a token of its kind. -/
theorem join (hc : IsSound c) (hlt : c ≠ '<') (hamp : c ≠ '&') (hbrace : c ≠ '\x7b')
    (hk : t.kind = textKind c) (h : Yields cs l ⟨.data, m, i + c.utf8Size, rest,
      some { t with value := t.value ++ String.singleton c }, []⟩ ts) :
    Yields cs l ⟨.data, m, i, c :: rest, some t, []⟩ ts := by
  refine .take rfl rfl hc (fun e he => ?_) h
  have hcontinue : e.buffer.continueAs l (textKind c) i = e.buffer := by
    rw [TokenBuffer.continueAs, if_pos]
    rw [show e.buffer.current = some t from he.token, ← hk]
    rfl
  refine ⟨e.buffer.push (String.singleton c), ?_, he.notHeld, ?_, he.ready⟩
  · rw [step_data he.state he.char hlt hamp hbrace, ← show e.mark = m from he.mark]
    simp only [Lexer.append, TokenBuffer.append, goto, he.locator,
      show e.cursor.start = i from he.start, hcontinue]
  · exact e.buffer.push_of_current _ he.token

/-- The first character of a token of text. -/
theorem startText (tok : Option PendingToken) (hc : IsSound c) (hlt : c ≠ '<') (hamp : c ≠ '&')
    (hbrace : c ≠ '\x7b')
    (hk : tok.map PendingToken.kind ≠ some (textKind c))
    (h : Yields cs l ⟨.data, m, i + c.utf8Size, rest,
      some ⟨textKind c, i, String.singleton c⟩, []⟩ ts) :
    Yields cs l ⟨.data, m, i, c :: rest, tok, []⟩ (l.pending tok i ++ ts) := by
  refine startWith (textKind c) .data (String.singleton c) hc
    (fun e hs hchar htok => ?_) (.handAll rfl h)
  rw [step_data hs hchar hlt hamp hbrace]
  simp only [Lexer.append, TokenBuffer.append, TokenBuffer.continueAs, htok, if_neg hk]
  rfl

/-- Characters of a text, some of which are in a token already. -/
theorem goOn {w : List Char} (hw : ∀ c ∈ w, IsSound c ∧ c ≠ '<' ∧ c ≠ '&' ∧ c ≠ '\x7b')
    (h : BehindText cs l (i + byteLength w) rest ts) :
    Yields cs l ⟨.data, m, i, w ++ rest, some t, []⟩ (textTokens l t i w ++ ts) := by
  induction w generalizing i t with
  | nil => exact h m (some t)
  | cons c w ih =>
    obtain ⟨⟨hc, hlt, hamp, hbrace⟩, hw⟩ := List.forall_mem_cons.1 hw
    rw [Text.byteLength_cons, ← Nat.add_assoc] at h
    rw [textTokens]
    split
    · next hk => exact join hc hlt hamp hbrace hk (ih hw h)
    · next hk => exact startText (some t) hc hlt hamp hbrace (by simpa using hk) (ih hw h)

/-- A text behind a tag. -/
theorem BehindText.text {w : List Char}
    (hw : ∀ c ∈ w, IsSound c ∧ c ≠ '<' ∧ c ≠ '&' ∧ c ≠ '\x7b')
    (h : BehindText cs l (i + byteLength w) rest ts) :
    BehindTag cs l i (w ++ rest) (textTokensAt l i w ++ ts) := by
  intro m
  cases w with
  | nil => exact h m none
  | cons c w =>
    obtain ⟨⟨hc, hlt, hamp, hbrace⟩, hw⟩ := List.forall_mem_cons.1 hw
    rw [Text.byteLength_cons, ← Nat.add_assoc] at h
    exact startText none hc hlt hamp hbrace (by simp) (goOn hw h)

/-! ## Forests -/

/-- The start tag of an element. -/
theorem BehindText.element {name : String} {as : List (String × String)}
    (hname : isName name = true) (has : ∀ a ∈ as, isName a.1 = true ∧ isValue a.2 = true)
    (h : BehindTag cs l (i + byteLength (printStartTag name as)) rest ts) :
    BehindText cs l i (printStartTag name as ++ rest)
      (l.token ⟨.tagOpen, i, name⟩ (i + 1 + bytes name) ::
        (tagTokens l (i + 1 + bytes name) as ++ ts)) := by
  intro m tok
  have hahead : printStartTag name as ++ rest =
      '<' :: (name.toList ++ (printAttributes as ++ '>' :: rest)) := by
    simp [printStartTag]
  rw [hahead]
  rw [add_printStartTag] at h
  refine openTag (tagName hname (fun e c => step_tagOpen) ?_)
  exact InTag.attributes has h _ _ _ (.inl rfl)

/-- The end tag of an element. -/
theorem BehindText.endTag {name : String} (hname : isName name = true)
    (h : BehindTag cs l (i + byteLength (printEndTag name)) rest ts) :
    BehindText cs l i (printEndTag name ++ rest)
      (l.token ⟨.endTagOpen, i, name⟩ (i + 2 + bytes name) ::
        (tagTokens l (i + 2 + bytes name) [] ++ ts)) := by
  intro m tok
  have hahead : printEndTag name ++ rest = '<' :: '/' :: (name.toList ++ '>' :: rest) := by
    simp [printEndTag]
  rw [hahead]
  rw [add_printEndTag] at h
  refine openTag (openEndTag (tagName hname (fun e c => step_endTagOpen) ?_))
  exact InTag.close h _ _ _ (.inl rfl)

/-- The tokens of a forest come first, behind a tag.  They do so behind a text as well, when the
forest does not start with one. -/
theorem forest {f : Forest} {parent : Option String} (hf : f.WellFormed parent)
    (h : BehindText cs l (i + byteLength f.print) rest ts) :
    BehindTag cs l i (f.print ++ rest) (f.tokens l i ++ ts) ∧
      (f.startsWithText = false → BehindText cs l i (f.print ++ rest) (f.tokens l i ++ ts)) := by
  induction f generalizing i rest ts parent with
  | nil => exact ⟨h.behindTag, fun _ => h⟩
  | text value behind ih =>
    obtain ⟨hvalue, hstarts, hbehind⟩ := hf
    refine ⟨?_, fun hstarts => absurd hstarts (by simp [startsWithText])⟩
    rw [print, Text.byteLength_append, ← Nat.add_assoc] at h
    rw [print, Forest.tokens, List.append_assoc, List.append_assoc]
    exact ((ih hbehind h).2 hstarts).text (isText_eq hvalue).2
  | element name as inside behind ihInside ihBehind =>
    obtain ⟨hname, -, has, -, hinside, hbehind⟩ := hf
    have hname := (isElementName_eq hname).1
    have hopen : BehindText cs l i ((element name as inside behind).print ++ rest)
        ((element name as inside behind).tokens l i ++ ts) := by
      rw [print, Text.byteLength_append, Text.byteLength_append, Text.byteLength_append,
        ← Nat.add_assoc, ← Nat.add_assoc, ← Nat.add_assoc] at h
      have hbehind := (ihBehind hbehind h).1
      have hinside := (ihInside hinside (.endTag hname hbehind)).1
      have hstart := BehindText.element hname
        (fun a ha => ⟨(isAttributeName_eq (has a ha).1).1, (has a ha).2⟩) hinside
      simpa [print, Forest.tokens] using hstart
    exact ⟨hopen.behindTag, fun _ => hopen⟩

/-- At the end of the text nothing is left but the text in front of it. -/
theorem BehindText.atEnd : BehindText cs l i [] [] := by
  intro m tok x taken ht hx
  have hready : x.buffer.ready = [] := hx.ready
  refine .of_pull (ht.pull_advanceStep hready hx.running) ?_
  have he := hx.entered_nil rfl
  rw [advanceStep_eq]
  generalize x.entered = e at he
  have hstep : e.step = e := by
    have hs : e.state = .data := he.state
    simp only [Lexer.step, hs, he.char, onData, goto]
    rw [← hs]
  rw [hstep, if_pos (by simp [he.char, he.again])]
  have hbuffer : (e.buffer.commitHeldBack l i).commitCurrent l i = e.buffer.commitCurrent l i := by
    rw [TokenBuffer.commitHeldBack, he.notHeld]
  have hi : e.cursor.index = i := he.here
  have hrest : ({ e.finish with log := (e.traceTo e.state).log } : Lexer).buffer.ready =
      l.pending tok i ++ [] := by
    simp only [Lexer.finish, he.locator, hi, hbuffer, TokenBuffer.ready_commitCurrent, he.ready,
      he.token, List.nil_append, List.append_nil]
  rw [← hrest]
  exact .atEnd rfl he.diagnostics

end View.Yields

/-- The lexer in front of the printed text of a forest yields its tokens. -/
theorem yields_print {f : Forest} (hf : f.WellFormed none) (origin : Origin) (tracing : Bool) :
    (ofChars f.print (.ofChars f.print origin) tracing).Yields
      (f.tokens (.ofChars f.print origin) 0) := by
  have hend : View.Yields.BehindText f.print (.ofChars f.print origin) (0 + byteLength f.print) []
      [] := .atEnd
  have hforest := (View.Yields.forest hf hend).1 0
  rw [List.append_nil, List.append_nil] at hforest
  refine hforest _ _ (tracks_start f.print origin tracing) ?_
  exact { locator := rfl, state := rfl, mark := rfl, reads := .next rfl rfl rfl, token := rfl
          ready := rfl, notHeld := rfl, running := rfl, diagnostics := rfl }

end Lexer
end TemplateSyntax
