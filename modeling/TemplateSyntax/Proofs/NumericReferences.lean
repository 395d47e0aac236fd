import TemplateSyntax.Proofs.Lexing

/-! # Numeric references

A numeric reference names a character by its number, in digits of any count.  The lexer keeps no
number above the first one that is no code point, and still each reference is decoded as the number
that its digits are in full.  What it means is never longer than what is written, as a character of
four bytes takes more than one digit. -/

namespace TemplateSyntax

open Text (From Between)

/-- The digits behind `&#x` or `&#X`, and those behind `&#` alone. -/
def NumericReference.isDigit (mark : Option Char) : Char → Bool :=
  if mark.isSome then CharClass.isHexDigit else Char.isDigit

/-- A numeric reference as it is written: an `x` or `X` or neither behind `&#`, at least one digit,
and a semicolon or none. -/
structure NumericReference where
  mark : Option Char
  digits : List Char
  closed : Bool
  mark_eq : ∀ x ∈ mark, x = 'x' ∨ x = 'X'
  digits_ne : digits ≠ []
  digits_all : ∀ d ∈ digits, NumericReference.isDigit mark d = true

namespace NumericReference

variable (ref : NumericReference)

def radix : Nat := if ref.mark.isSome then 16 else 10

/-- The number that the digits are. -/
def number : Nat := numeral ref.radix ref.digits

/-- What stands in front of the digits. -/
def lead : List Char := '&' :: '#' :: ref.mark.toList

/-- The reference without its semicolon. -/
def body : List Char := ref.lead ++ ref.digits

def raw : List Char := ref.body ++ if ref.closed then [';'] else []

/-- The state that the digits are read in. -/
def digitState : LexState :=
  if ref.mark.isSome then .hexadecimalCharacterReference else .decimalCharacterReference

/-- The state in front of the digits. -/
def startState : LexState :=
  if ref.mark.isSome then .hexadecimalCharacterReferenceStart else .decimalCharacterReferenceStart

/-- Without a semicolon the reference ends where no digit follows. -/
def EndsBefore (rest : List Char) : Prop :=
  ref.closed = true ∨ ∀ c ∈ rest.head?, isDigit ref.mark c = false ∧ c ≠ ';'

/-- The character that a reference to a number means. -/
inductive Means (n : Nat) : Char → Prop
  | replaced (h : n = 0 ∨ (0xd800 ≤ n ∧ n ≤ 0xdfff) ∨ 0x10ffff < n) : Means n '\ufffd'
  | codePage {c : Char} (h : CharClass.codePageReplacement? n = some c) : Means n c
  | itself {c : Char} (hzero : n ≠ 0) (hpage : CharClass.codePageReplacement? n = none)
    (h : c.toNat = n) : Means n c

/-- What is wrong with the number of a reference. -/
inductive WrongNumber (n : Nat) : Cause → Prop
  | null (h : n = 0) : WrongNumber n .nullCharacterReference
  | outside (h : 0x10ffff < n) : WrongNumber n .characterReferenceOutsideUnicodeRange
  | surrogate (h : 0xd800 ≤ n ∧ n ≤ 0xdfff) : WrongNumber n .surrogateCharacterReference
  | noncharacter (h : (0xfdd0 ≤ n ∧ n ≤ 0xfdef) ∨
      ((n % 0x10000 = 0xfffe ∨ n % 0x10000 = 0xffff) ∧ n ≤ 0x10ffff)) :
    WrongNumber n .noncharacterCharacterReference
  | control (h : n ≤ 0x1f ∨ (0x7f ≤ n ∧ n ≤ 0x9f)) (hblank : n ∉ [0, 0x09, 0x0a, 0x0c]) :
    WrongNumber n .controlCharacterReference

/-- What is wrong with a reference. -/
inductive Wrong : Cause → Prop
  | unclosed (h : ref.closed = false) : Wrong .missingSemicolonAfterCharacterReference
  | number {cause : Cause} (h : WrongNumber ref.number cause) : Wrong cause

variable {ref} in
/-- The character behind a reference that is not closed is none of it. -/
theorem EndsBefore.char {rest tail : List Char} {c : Char} (h : ref.EndsBefore rest)
    (hc : Text.Gives rest c tail) (hclosed : ref.closed = false) :
    isDigit ref.mark c = false ∧ c ≠ ';' := by
  have hends := h.resolve_left (by simp [hclosed])
  cases hc with
  | char _ _ => exact hends c rfl
  | pair | lone =>
    refine ⟨?_, by decide⟩
    unfold isDigit
    split <;> decide

/-! ## The character -/

section
variable {n : Nat} {c : Char}

theorem utf8Size_of_codePageReplacement? (h : CharClass.codePageReplacement? n = some c) :
    c.utf8Size ≤ 3 := by
  unfold CharClass.codePageReplacement? at h
  split at h
  all_goals cases h
  all_goals decide

theorem toNat_ofNat_of_valid (h : n ≤ 0x10ffff) (hs : CharClass.isSurrogate n = false) :
    (Char.ofNat n).toNat = n := by
  have hvalid : n.isValidChar := by
    simp only [CharClass.isSurrogate, Bool.and_eq_false_iff, decide_eq_false_iff_not] at hs
    simp only [Nat.isValidChar]
    omega
  rw [Char.ofNat, dif_pos hvalid]
  rfl

theorem means_codeCharacter (n : Nat) : Means n (Lexer.codeCharacter n) := by
  unfold Lexer.codeCharacter
  split
  · next h =>
    refine .replaced ?_
    simp only [CharClass.isSurrogate, Bool.or_eq_true, Bool.and_eq_true, decide_eq_true_eq] at h
    omega
  · next h =>
    simp only [Bool.or_eq_true, decide_eq_true_eq, not_or, Bool.not_eq_true] at h
    obtain ⟨⟨hzero, hmax⟩, hs⟩ := h
    cases hpage : CharClass.codePageReplacement? n with
    | some c => exact .codePage hpage
    | none => exact .itself hzero hpage (toNat_ofNat_of_valid (Nat.le_of_not_lt hmax) hs)

/-- Only a character of a number above U+FFFF has four bytes. -/
theorem Means.utf8Size_le (h : Means n c) : c.utf8Size ≤ 3 ∨ 0xffff < n := by
  cases h with
  | replaced => exact .inl (by decide)
  | codePage h => exact .inl (utf8Size_of_codePageReplacement? h)
  | itself _ _ h =>
    refine or_iff_not_imp_right.2 fun hn => ?_
    have hval : c.val ≤ 0xffff := by
      rw [UInt32.le_iff_toNat_le]
      exact Nat.le_trans (Nat.le_of_eq h) (Nat.le_of_not_lt hn)
    unfold Char.utf8Size
    dsimp only
    repeat' split
    all_goals first | decide | contradiction

/-- Numbers behind the last code point all have the same fault. -/
theorem codeFault?_min (n : Nat) : Lexer.codeFault? (min n 0x110000) = Lexer.codeFault? n := by
  by_cases hn : n ≤ 0x110000
  · rw [Nat.min_eq_left hn]
  · have hlt : 0x10ffff < n := by omega
    rw [Nat.min_eq_right (Nat.le_of_not_le hn), Lexer.codeFault?, Lexer.codeFault?,
      if_neg (by decide), if_pos (by decide), if_neg (by omega), if_pos hlt]

/-- At most one thing is wrong with a number, and that is found. -/
theorem codeFault?_eq_some_iff {cause : Cause} :
    Lexer.codeFault? n = some cause ↔ WrongNumber n cause := by
  unfold Lexer.codeFault?
  simp only [CharClass.isSurrogate, CharClass.isNoncharacter, CharClass.isControl, Bool.or_eq_true,
    Bool.and_eq_true, decide_eq_true_eq, bne_iff_ne, beq_iff_eq]
  constructor
  · intro h
    split at h
    · next hn =>
      cases h
      exact .null hn
    split at h
    · next hn =>
      cases h
      exact .outside hn
    split at h
    · next hn =>
      cases h
      exact .surrogate hn
    split at h
    · next hn =>
      cases h
      exact .noncharacter (by omega)
    split at h
    · next hn =>
      cases h
      exact .control (by omega) (by simp; omega)
    · cases h
  · intro h
    cases h with
    | null h => rw [if_pos h]
    | outside h => rw [if_neg (by omega), if_pos h]
    | surrogate h => rw [if_neg (by omega), if_neg (by omega), if_pos h]
    | noncharacter h =>
      rw [if_neg (by omega), if_neg (by omega), if_neg (by omega), if_pos (by omega)]
    | control h hblank =>
      simp only [List.mem_cons, List.not_mem_nil, or_false, not_or] at hblank
      rw [if_neg (by omega), if_neg (by omega), if_neg (by omega), if_neg (by omega),
        if_pos (by omega)]

end

/-- What is reported of a reference. -/
def causes : List Cause :=
  (if ref.closed then [] else [.missingSemicolonAfterCharacterReference]) ++
    (Lexer.codeFault? ref.number).toList

variable {ref} in
theorem mem_causes_iff {cause : Cause} : cause ∈ ref.causes ↔ ref.Wrong cause := by
  rw [causes, List.mem_append, Option.mem_toList, codeFault?_eq_some_iff]
  constructor
  · rintro (h | h)
    · split at h
      · cases h
      · next hclosed =>
        obtain rfl := List.mem_singleton.1 h
        exact .unclosed (eq_false_of_ne_true hclosed)
    · exact .number h
  · intro h
    cases h with
    | unclosed hclosed => simp [hclosed]
    | number h => exact .inr h

theorem causes_nodup : ref.causes.Nodup := by
  have hfault : (Lexer.codeFault? ref.number).toList.Nodup := by
    cases Lexer.codeFault? ref.number with
    | none => exact List.nodup_nil
    | some cause => exact List.nodup_cons.2 ⟨List.not_mem_nil, List.nodup_nil⟩
  rw [causes]
  split
  · exact hfault
  · refine List.nodup_cons.2 ⟨fun h => ?_, hfault⟩
    cases codeFault?_eq_some_iff.1 (Option.mem_toList.1 h)

/-! ## The text -/

section
variable {mark : Option Char} {d : Char}

theorem isHexDigit_of_isDigit (h : isDigit mark d = true) : CharClass.isHexDigit d = true := by
  unfold isDigit at h
  split at h
  · exact h
  · simp [CharClass.isHexDigit, h]

theorem isReferenceChar_of_isDigit (h : isDigit mark d = true) : isReferenceChar d = true :=
  isReferenceChar_of_isAlphanum (isAlphanum_of_isHexDigit (isHexDigit_of_isDigit h))

theorem ne_semicolon_of_isDigit (h : isDigit mark d = true) : d ≠ ';' := by
  rintro rfl
  exact absurd (isHexDigit_of_isDigit h) (by decide)

end

theorem radix_pos : 0 < ref.radix := by
  unfold radix
  split <;> decide

/-- A character of four bytes has more than one digit. -/
theorem Means.size_le_body {ref : NumericReference} {c : Char} (h : Means ref.number c) :
    c.utf8Size ≤ ref.body.length := by
  have hlength : ref.body.length = 2 + ref.mark.toList.length + ref.digits.length := by
    rw [body, lead, List.length_append, List.length_cons, List.length_cons]
    omega
  match hds : ref.digits with
  | [] => exact absurd hds ref.digits_ne
  | [d] =>
    have hdigit := digitValue_le (isHexDigit_of_isDigit (ref.digits_all d (by simp [hds])))
    have hnumber : ref.number = CharClass.digitValue d := by simp [number, hds, numeral]
    have hsize := h.utf8Size_le
    simp only [hds, List.length_singleton] at hlength
    omega
  | _ :: _ :: _ =>
    have hfour := c.utf8Size_le_four
    simp only [hds, List.length_cons] at hlength
    omega

theorem step_startState {e : Lexer} (he : e.state = ref.startState) :
    e.step = e.onNumericReferenceStart (isDigit ref.mark) ref.digitState e.cursor.char := by
  rw [startState] at he
  rw [digitState, isDigit]
  cases hmark : ref.mark <;> simp [hmark] at he <;> simp [Lexer.step, he]

theorem step_digitState {e : Lexer} (he : e.state = ref.digitState) :
    e.step = e.onNumericReferenceDigits (isDigit ref.mark) ref.radix ref.digitState e.cursor.char := by
  rw [digitState] at he
  rw [digitState, isDigit, radix]
  cases hmark : ref.mark <;> simp [hmark] at he <;> simp [Lexer.step, he]

end NumericReference

/-! ## Reading -/

theorem Cursor.inputFault?_of_isReferenceChar {c : Char} (h : isReferenceChar c = true) :
    Cursor.inputFault? c = none := by
  have hcode : 35 ≤ c.toNat ∧ c.toNat ≤ 122 := by
    simp only [isReferenceChar, Bool.or_eq_true, beq_iff_eq] at h
    rcases h with ((rfl | rfl) | rfl) | h
    · decide
    · decide
    · decide
    · have hrange := isAlphanum_iff.1 h
      simp only [UInt32.le_iff_toNat_le, UInt32.reduceToNat] at hrange
      change ((65 ≤ c.toNat ∧ c.toNat ≤ 90) ∨ (97 ≤ c.toNat ∧ c.toNat ≤ 122)) ∨
        (48 ≤ c.toNat ∧ c.toNat ≤ 57) at hrange
      omega
  unfold Cursor.inputFault? CharClass.isDisallowedControl CharClass.isControl CharClass.isNoncharacter
  simp only [Bool.and_eq_true, Bool.or_eq_true, decide_eq_true_eq, bne_iff_ne, beq_iff_eq]
  rw [if_neg (by omega), if_neg (by omega), if_neg (by omega)]

namespace Lexer

variable {cs rest raw : List Char} {taken : List Token} {l x e : Lexer} {i n m : Nat} {ch : Char}
  {s r : LexState}

/-- A character of a reference is taken up as it is, with nothing to record. -/
theorem Faces.entered_eq (h : x.Faces i (ch :: rest)) (hc : isReferenceChar ch = true) :
    ∃ cursor, x.entered = { x with cursor, again := false } := by
  cases h with
  | same again => exact ⟨x.cursor, by rw [Lexer.entered, if_pos again]⟩
  | next again index hrest =>
    have hplain := (isReferenceChar_plain hc).2.1
    have hdrop : x.cursor.droppedLineFeed? = none := by
      rw [Cursor.droppedLineFeed?, hrest]
      split
      · next heq => exact absurd (List.cons.inj heq).1 hplain
      · rfl
    have hchar : x.cursor.advance.char = some ch := by
      unfold Cursor.advance
      rw [hrest]
      split
      · next heq => cases heq
      · next heq => exact absurd (List.cons.inj heq).1 hplain
      · next heq => exact absurd (List.cons.inj heq).1 hplain
      · next heq => rw [(List.cons.inj heq).1]
    refine ⟨x.cursor.advance, ?_⟩
    rw [Lexer.entered, if_neg (by simp [again]), advance, moveOn, hdrop]
    simp [hchar, Cursor.inputFault?_of_isReferenceChar hc, ← again]

/-- The states in which an `&` starts a character reference. -/
def readsReferences : LexState → Bool
  | .data | .rcdata | .attributeValueDoubleQuoted | .attributeValueSingleQuoted
  | .attributeValueUnquoted | .interpolationData => true
  | _ => false

/-- The lexer takes up an `&` and knows where it stands and where to go back to. -/
theorem Faces.ampersand (h : l.Faces i ('&' :: rest)) (hs : readsReferences l.state = true) :
    l.advanceStep.Faces (i + 1) rest ∧ ∃ cursor log, l.advanceStep = { l with
      cursor, log, again := false, state := .characterReference, returnState := l.state, refStart := i
      refText := '&' :: rest } := by
  obtain ⟨cursor, hentered⟩ := h.entered_eq (by decide)
  obtain ⟨hhand, -⟩ := h.entered
  obtain ⟨hchar, hrest, hindex⟩ := hhand.cons (by decide)
  have hstep : l.entered.step = l.entered.startReference l.entered.state := by
    have hs' : readsReferences l.entered.state = true := by rwa [hentered]
    rw [Lexer.step]
    cases hstate : l.entered.state
    all_goals first
      | (rw [hchar]; rfl)
      | exact absurd hs' (by rw [hstate]; decide)
  obtain ⟨log, hlog⟩ := advanceStep_goesOn (l := l)
    (.inr (by rw [hstep, startReference, hchar]; exact Option.some_ne_none _))
  rw [hlog, hstep]
  refine ⟨?_, cursor, log, ?_⟩
  · rw [← hrest, show i + 1 = l.entered.cursor.index from hindex.symm]
    exact hhand.takes rfl rfl
  · rw [startReference, hhand.start, hhand.here, hentered]

/-- Behind an `&` the lexer has gone on to read `raw`, and has changed nothing but the number that it
has read. -/
structure ReadsReference (l : Lexer) (raw rest : List Char) (s : LexState) (n : Nat) (x : Lexer) : Prop where
  comesTo : l.ComesTo x
  faces : x.Faces (l.refStart + raw.length) rest
  keeps : ∃ cursor again breaches log,
    x = { l with cursor, again, breaches, log, state := s, charCode := n }

theorem ReadsReference.state (h : l.ReadsReference raw rest s n x) : x.state = s := by
  obtain ⟨cursor, again, breaches, log, hx⟩ := h.keeps
  rw [hx]

namespace ReadsReference

variable (hready : l.buffer.ready = []) (hrun : l.finished = false)
include hready hrun

theorem step (h : l.ReadsReference raw rest s n x) : l.ComesTo x.advanceStep := by
  obtain ⟨cursor, again, breaches, log, hx⟩ := h.keeps
  exact h.comesTo.step (by rw [hx, hready]) (by rw [hx, hrun])

/-- One more character is read. -/
theorem take (h : l.ReadsReference raw (ch :: rest) s n x) (hc : isReferenceChar ch = true)
    (hstep : ∀ e : Lexer, e.state = s → e.charCode = n → e.cursor.char = some ch →
      ∃ breaches, e.step = { e with state := r, charCode := m, breaches }) :
    l.ReadsReference (raw ++ [ch]) rest r m x.advanceStep ∧ x.advanceStep.again = false := by
  obtain ⟨cursor, again, breaches, log, hx⟩ := h.keeps
  obtain ⟨cursor', hentered⟩ := h.faces.entered_eq hc
  obtain ⟨hhand, -⟩ := h.faces.entered
  obtain ⟨hchar, hrest, hindex⟩ := hhand.cons (isReferenceChar_plain hc).2.1
  obtain ⟨breaches', hstep⟩ := hstep x.entered (by rw [hentered, hx]) (by rw [hentered, hx]) hchar
  obtain ⟨log', hlog⟩ := advanceStep_goesOn (l := x) (.inr (by rw [hstep, hchar]; simp))
  rw [isReferenceChar_utf8Size hc] at hindex
  refine ⟨⟨h.step hready hrun, ?_, ?_⟩, ?_⟩
  · rw [hlog, hstep, List.length_append, List.length_singleton, ← Nat.add_assoc, ← hindex, ← hrest]
    exact hhand.takes rfl rfl
  · rw [hlog, hstep, hentered, hx]
    exact ⟨_, _, _, _, rfl⟩
  · rw [hlog, hstep, hentered]

/-- The character is taken up in another state. -/
theorem keep (h : l.ReadsReference raw (ch :: rest) s n x) (hc : isReferenceChar ch = true)
    (hstep : ∀ e : Lexer, e.state = s → e.charCode = n → e.cursor.char = some ch →
      e.step = { e with state := r, charCode := m, again := true }) :
    l.ReadsReference raw (ch :: rest) r m x.advanceStep := by
  obtain ⟨cursor, again, breaches, log, hx⟩ := h.keeps
  obtain ⟨cursor', hentered⟩ := h.faces.entered_eq hc
  obtain ⟨hhand, -⟩ := h.faces.entered
  obtain ⟨hchar, -, -⟩ := hhand.cons (isReferenceChar_plain hc).2.1
  have hstep := hstep x.entered (by rw [hentered, hx]) (by rw [hentered, hx]) hchar
  obtain ⟨log', hlog⟩ := advanceStep_goesOn (l := x) (.inl (by rw [hstep]))
  refine ⟨h.step hready hrun, ?_, ?_⟩
  · rw [hlog, hstep]
    exact hhand.keeps rfl rfl
  · rw [hlog, hstep, hentered, hx]
    exact ⟨_, _, _, _, rfl⟩

variable {ref : NumericReference}

/-- The mark is read, if there is one, up to the first digit. -/
theorem mark {d : Char} (hd : NumericReference.isDigit ref.mark d = true)
    (h : l.ReadsReference ['&', '#'] (ref.mark.toList ++ d :: rest) .numericCharacterReference n x) :
    l.ReadsReference ref.lead (d :: rest) ref.startState 0 x.advanceStep := by
  rw [NumericReference.lead, NumericReference.startState]
  cases hmark : ref.mark with
  | none =>
    rw [hmark] at h hd
    refine h.keep hready hrun (NumericReference.isReferenceChar_of_isDigit hd) fun e he _ hc => ?_
    simp only [Lexer.step, he, hc]
    rw [onNumericCharacterReference]
    · rfl
    all_goals
      rintro ⟨⟩
      exact absurd hd (by decide)
  | some mark =>
    rw [hmark] at h
    have hx := ref.mark_eq mark hmark
    refine (h.take hready hrun (r := .hexadecimalCharacterReferenceStart) ?_ fun e he _ hc => ?_).1
    · rcases hx with rfl | rfl <;> decide
    · refine ⟨e.breaches, ?_⟩
      simp only [Lexer.step, he, hc]
      rcases hx with rfl | rfl <;> rfl

/-- At the first digit the lexer knows that there are digits. -/
theorem firstDigit {d : Char} (hd : NumericReference.isDigit ref.mark d = true)
    (h : l.ReadsReference ref.lead (d :: rest) ref.startState n x) :
    l.ReadsReference ref.lead (d :: rest) ref.digitState n x.advanceStep := by
  refine h.keep hready hrun (NumericReference.isReferenceChar_of_isDigit hd) fun e he hn hc => ?_
  rw [ref.step_startState he, hc, onNumericReferenceStart, if_pos (by simpa using hd), ← hn]
  rfl

/-- Digit after digit is read, and the number grows with them up to the last code point. -/
theorem digits {done ds : List Char} (hds : ∀ d ∈ ds, NumericReference.isDigit ref.mark d = true)
    (h : l.ReadsReference (ref.lead ++ done) (ds ++ rest) ref.digitState
      (min (numeral ref.radix done) 0x110000) x) :
    ∃ y, l.ReadsReference (ref.lead ++ (done ++ ds)) rest ref.digitState
      (min (numeral ref.radix (done ++ ds)) 0x110000) y ∧
      (ds ≠ [] ∨ x.again = false → y.again = false) := by
  induction ds generalizing done x with
  | nil =>
    refine ⟨x, by rwa [List.append_nil], fun h => h.resolve_left (absurd rfl)⟩
  | cons d ds ih =>
    obtain ⟨hd, hds⟩ := List.forall_mem_cons.1 hds
    obtain ⟨htake, hagain⟩ := h.take hready hrun (r := ref.digitState)
      (m := min (numeral ref.radix (done ++ [d])) 0x110000)
      (NumericReference.isReferenceChar_of_isDigit hd) fun e he hn hc => by
        refine ⟨(e.addDigit ref.radix (CharClass.digitValue d)).breaches, ?_⟩
        rw [ref.step_digitState he, hc, onNumericReferenceDigits, if_pos hd, numeral_snoc,
          ← addDigit_value hn _ ref.radix_pos, ← he]
        rfl
    rw [List.append_assoc] at htake
    obtain ⟨y, hy, hy'⟩ := ih hds htake
    rw [List.append_assoc] at hy
    exact ⟨y, hy, fun _ => hy' (.inr hagain)⟩

end ReadsReference

/-! ## The end of a reference -/

/-- The line feed that is dropped with the character that the lexer will take up again. -/
def gapsAtHand (l : Lexer) : List Nat :=
  if l.again then l.cursor.dropped?.toList.map l.locator.host else []

/-- What was wrong with the character that the lexer will take up again. -/
def faultsAtHand (l : Lexer) : List Diagnostic :=
  if l.again then
    (l.cursor.char.bind Cursor.inputFault?).toList.map fun cause =>
      l.locator.diagnose cause (l.locator.host l.cursor.start)
  else []

theorem advance_eq (l : Lexer) : ∃ breaches, l.advance = { l with
    cursor := l.cursor.advance
    gaps := l.gaps ++ l.cursor.advance.dropped?.toList.map l.locator.host
    diagnostics := l.diagnostics ++ (l.cursor.advance.char.bind Cursor.inputFault?).toList.map
      fun cause => l.locator.diagnose cause (l.locator.host l.cursor.advance.start)
    breaches } := by
  have hmove : ∃ breaches, l.moveOn = { l with
      cursor := l.cursor.advance
      gaps := l.gaps ++ l.cursor.advance.dropped?.toList.map l.locator.host
      breaches } := by
    rw [Cursor.dropped?_advance, moveOn]
    cases l.cursor.droppedLineFeed? with
    | none => exact ⟨l.breaches, by simp⟩
    | some index => exact ⟨_, rfl⟩
  obtain ⟨breaches, hmove⟩ := hmove
  rw [advance, hmove]
  dsimp only
  cases l.cursor.advance.char.bind Cursor.inputFault? with
  | none => exact ⟨breaches, by simp⟩
  | some cause => exact ⟨_, by simp [report, reportAt]; rfl⟩

/-- A character that is not longer than its reference is received, and the rest goes on record. -/
theorem flushDecoded_singleton {c : Char} {stop : Nat} (h : c.utf8Size ≤ stop - e.refStart) :
    ∃ breaches, e.flushDecoded (String.singleton c) stop = { e with
      buffer := (e.flushReference (String.singleton c)).buffer
      gaps := e.gaps ++ (List.range' (e.refStart + c.utf8Size)
        (stop - (e.refStart + c.utf8Size))).map e.locator.host
      breaches } := by
  unfold flushDecoded
  dsimp only
  rw [String.utf8ByteSize_singleton, if_pos h]
  exact ⟨_, rfl⟩

theorem finishNumericReference_eq {stop : Nat}
    (h : (codeCharacter e.charCode).utf8Size ≤ stop - e.refStart) :
    ∃ breaches, e.finishNumericReference stop = { e with
      buffer := (e.flushReference (String.singleton (codeCharacter e.charCode))).buffer
      gaps := e.gaps ++ (List.range' (e.refStart + (codeCharacter e.charCode).utf8Size)
        (stop - (e.refStart + (codeCharacter e.charCode).utf8Size))).map e.locator.host
      diagnostics := e.diagnostics ++ (codeFault? e.charCode).toList.map
        fun cause => e.locator.diagnose cause (e.locator.host e.cursor.start)
      breaches } := by
  rw [finishNumericReference]
  cases codeFault? e.charCode with
  | none =>
    obtain ⟨breaches, hflush⟩ := flushDecoded_singleton h
    exact ⟨breaches, by simpa using hflush⟩
  | some cause =>
    obtain ⟨breaches, hflush⟩ := flushDecoded_singleton (e := e.report cause) h
    exact ⟨breaches, hflush.trans (by simp [report, reportAt]; rfl)⟩

/-- What a reference leaves alone up to its end, where `n` is its number. -/
structure CarriesNumber (l : Lexer) (n : Nat) (e : Lexer) : Prop where
  locator : e.locator = l.locator
  buffer : e.buffer = l.buffer
  returnState : e.returnState = l.returnState
  refStart : e.refStart = l.refStart
  charCode : e.charCode = n

theorem CarriesNumber.finish (h : l.CarriesNumber n e) (stop : Nat)
    (hsize : (codeCharacter n).utf8Size ≤ stop - l.refStart) :
    ∃ y, e.finishNumericReference stop = y ∧
      (y.locator = l.locator ∧ y.cursor = e.cursor ∧ y.again = e.again) ∧
      y.buffer = (l.flushReference (String.singleton (codeCharacter n))).buffer ∧
      y.gaps.toList = e.gaps.toList ++ (List.range' (l.refStart + (codeCharacter n).utf8Size)
        (stop - (l.refStart + (codeCharacter n).utf8Size))).map l.locator.host ∧
      y.diagnostics.toList = e.diagnostics.toList ++ (codeFault? n).toList.map
        fun cause => l.locator.diagnose cause (l.locator.host e.cursor.start) := by
  obtain ⟨hlocator, hbuffer, hreturn, href, rfl⟩ := h
  rw [← href] at hsize ⊢
  obtain ⟨breaches, hfinish⟩ := finishNumericReference_eq hsize
  refine ⟨_, hfinish, ⟨hlocator, rfl, rfl⟩, ?_, ?_, ?_⟩
  · simp only [flushReference, hlocator, hbuffer, hreturn, href]
  · simp [hlocator]
  · simp [hlocator]

/-- The lexer has come behind a reference, and has received a character for it. -/
structure DecodesReference (l : Lexer) (ref : NumericReference) (rest : List Char) (c : Char)
    (causes : List Cause) (x : Lexer) : Prop where
  comesTo : l.ComesTo x
  faces : x.Faces (l.refStart + ref.raw.length) rest
  /-- The character behind a reference without a semicolon is taken up again. -/
  again : x.again = !ref.closed
  state : x.state = l.returnState
  buffer : x.buffer = (l.flushReference (String.singleton c)).buffer
  gaps : x.gaps.toList = l.gaps.toList ++ x.gapsAtHand ++
    (List.range' (l.refStart + c.utf8Size) (ref.raw.length - c.utf8Size)).map l.locator.host
  diagnostics : x.diagnostics.toList = l.diagnostics.toList ++ x.faultsAtHand ++
    causes.map fun cause => l.locator.diagnose cause (l.locator.host (l.refStart + ref.body.length))

namespace ReadsReference

variable {ref : NumericReference} (hready : l.buffer.ready = []) (hrun : l.finished = false)

/-- The character behind what was read is taken up, with what is to record of it. -/
theorem entered (h : l.ReadsReference raw rest s n x) (hagain : x.again = false) :
    l.CarriesNumber n x.entered ∧
      x.entered.gaps.toList =
        l.gaps.toList ++ x.entered.cursor.dropped?.toList.map l.locator.host ∧
      x.entered.diagnostics.toList = l.diagnostics.toList ++
        (x.entered.cursor.char.bind Cursor.inputFault?).toList.map fun cause =>
          l.locator.diagnose cause (l.locator.host x.entered.cursor.start) := by
  obtain ⟨cursor, again, breaches, log, hx⟩ := h.keeps
  obtain ⟨breaches', hadvance⟩ := x.advance_eq
  rw [Lexer.entered, if_neg (by simp [hagain]), hadvance, hx]
  exact ⟨⟨rfl, rfl, rfl, rfl, rfl⟩, by simp, by simp⟩

include hready hrun

/-- A semicolon ends the reference. -/
theorem semicolon (h : l.ReadsReference ref.body (';' :: rest) ref.digitState n x) (hagain : x.again = false)
    (hsize : (codeCharacter n).utf8Size ≤ ref.body.length) (hclosed : ref.closed = true) :
    l.DecodesReference ref rest (codeCharacter n) (codeFault? n).toList x.advanceStep := by
  have hlength : ref.raw.length = ref.body.length + 1 := by simp [NumericReference.raw, hclosed]
  obtain ⟨hkeeps, hgaps, hdiagnostics⟩ := h.entered hagain
  obtain ⟨hhand, hplace⟩ := h.faces.entered
  obtain ⟨hchar, hrest, hindex⟩ := hhand.cons (by decide)
  have hstart := hhand.start
  rw [show ';'.utf8Size = 1 from rfl] at hindex
  -- nothing is on record for the semicolon
  rw [show x.entered.cursor.dropped? = none by rw [Cursor.dropped?, hhand.here]; rfl]
    at hgaps
  rw [hchar, Option.bind_some, Cursor.inputFault?_of_isReferenceChar (by decide)] at hdiagnostics
  obtain ⟨y, hy, ⟨-, hcursor, hyagain⟩, hbuffer, hygaps, hydiagnostics⟩ :=
    hkeeps.finish x.entered.cursor.index (by omega)
  have hstep : x.entered.step = y.goto l.returnState := by
    rw [ref.step_digitState ((congrArg Place.state hplace).trans h.state), hchar,
      onNumericReferenceDigits, if_neg fun hd => NumericReference.ne_semicolon_of_isDigit hd rfl,
      ← hy, ← hkeeps.returnState]
    rfl
  obtain ⟨log, hlog⟩ := advanceStep_goesOn (l := x)
    (.inr (by rw [hstep, goto, hcursor, hchar]; exact Option.some_ne_none _))
  have hagain' : y.again = false := hyagain.trans hhand.again
  have hcount : x.entered.cursor.index - (l.refStart + (codeCharacter n).utf8Size) =
      ref.raw.length - (codeCharacter n).utf8Size := by omega
  refine ⟨h.step hready hrun, ?_, ?_, ?_, ?_, ?_, ?_⟩ <;> rw [hlog, hstep]
  · rw [hlength, ← Nat.add_assoc, ← hindex, ← hrest]
    exact hhand.takes hcursor hyagain
  · rw [goto, hclosed, hagain']
    rfl
  · rfl
  · exact hbuffer
  · rw [gapsAtHand, goto, hygaps, hgaps, hcount, if_neg (by simp [hagain'])]
    rfl
  · rw [faultsAtHand, goto, hydiagnostics, hdiagnostics, hstart, if_neg (by simp [hagain'])]
    rfl

/-- Without a semicolon the reference ends in front of any other character, or at the end of the
text. -/
theorem unclosed (h : l.ReadsReference ref.body rest ref.digitState n x) (hagain : x.again = false)
    (hsize : (codeCharacter n).utf8Size ≤ ref.body.length) (hclosed : ref.closed = false)
    (hends : ref.EndsBefore rest) :
    l.DecodesReference ref rest (codeCharacter n)
      (.missingSemicolonAfterCharacterReference :: (codeFault? n).toList) x.advanceStep := by
  have hraw : ref.raw = ref.body := by simp [NumericReference.raw, hclosed]
  obtain ⟨hkeeps, hgaps, hdiagnostics⟩ := h.entered hagain
  obtain ⟨hhand, hplace⟩ := h.faces.entered
  have hstart := hhand.start
  let e := x.entered.report .missingSemicolonAfterCharacterReference
  have hkeeps' : l.CarriesNumber n e := { hkeeps with }
  have hreport : e.diagnostics.toList = x.entered.diagnostics.toList ++
      [l.locator.diagnose .missingSemicolonAfterCharacterReference
        (l.locator.host x.entered.cursor.start)] := by
    simp [e, report, reportAt, hkeeps.locator]
  obtain ⟨y, hy, ⟨hlocator, hcursor, -⟩, hbuffer, hygaps, hydiagnostics⟩ :=
    hkeeps'.finish x.entered.cursor.start (by omega)
  have hstep : x.entered.step = y.reconsume l.returnState := by
    rw [ref.step_digitState ((congrArg Place.state hplace).trans h.state), ← hy, ← hkeeps.returnState]
    cases hc : x.entered.cursor.char with
    | none => rfl
    | some c =>
      obtain ⟨hdigit, hsemicolon⟩ := hends.char (hhand.gives hc) hclosed
      rw [onNumericReferenceDigits, if_neg (by simp [hdigit]), if_neg (by simpa using hsemicolon)]
  obtain ⟨log, hlog⟩ := advanceStep_goesOn (l := x) (.inl (by rw [hstep]; rfl))
  have hcount : x.entered.cursor.start - (l.refStart + (codeCharacter n).utf8Size) =
      ref.raw.length - (codeCharacter n).utf8Size := by rw [hraw]; omega
  refine ⟨h.step hready hrun, ?_, ?_, ?_, ?_, ?_, ?_⟩ <;> rw [hlog, hstep]
  · rw [hraw]
    exact hhand.keeps hcursor rfl
  · rw [hclosed]
    rfl
  · rfl
  · exact hbuffer
  · rw [gapsAtHand, reconsume, if_pos rfl]
    dsimp only
    rw [hygaps, hcount, hlocator, hcursor]
    exact congrArg (· ++ _) hgaps
  · rw [faultsAtHand, reconsume, if_pos rfl]
    dsimp only
    rw [hydiagnostics, hreport, hdiagnostics, hlocator, hcursor, ← hstart]
    exact (List.append_cons ..).symm

end ReadsReference

/-- Behind an `&`, the lexer reads a reference up to its last digit. -/
theorem exists_readsReference (hready : l.buffer.ready = []) (hrun : l.finished = false)
    (hstate : l.state = .characterReference) {ref : NumericReference}
    (hfaces : l.Faces (l.refStart + 1) (ref.raw.tail ++ rest)) :
    ∃ x, l.ReadsReference ref.body ((if ref.closed then [';'] else []) ++ rest) ref.digitState
      (min ref.number 0x110000) x ∧ x.again = false := by
  obtain ⟨d, ds, hdigits⟩ := List.exists_cons_of_ne_nil ref.digits_ne
  have hall := ref.digits_all
  rw [NumericReference.raw, NumericReference.body, NumericReference.lead] at hfaces
  rw [NumericReference.body, NumericReference.number]
  rw [hdigits] at hall hfaces ⊢
  have hd : NumericReference.isDigit ref.mark d = true := hall d (List.mem_cons_self ..)
  have hstart : l.ReadsReference ['&'] ('#' :: (ref.mark.toList ++ d :: (ds ++
      ((if ref.closed then [';'] else []) ++ rest)))) .characterReference l.charCode l :=
    ⟨.here, by simpa using hfaces, l.cursor, l.again, l.breaches, l.log, by rw [← hstate]⟩
  have hnumber := (hstart.take hready hrun (r := .numericCharacterReference) (m := l.charCode)
    (by decide) fun e he hn hc => ⟨e.breaches, by
      rw [Lexer.step, he]
      dsimp only
      rw [hc, ← hn]
      rfl⟩).1
  have hfirst := (hnumber.mark hready hrun hd).firstDigit hready hrun hd
  rw [← List.append_nil ref.lead, ← List.cons_append] at hfirst
  obtain ⟨x, hx, hagain⟩ := ReadsReference.digits hready hrun hall hfirst
  exact ⟨x, hx, hagain (.inl (List.cons_ne_nil _ _))⟩

/-- Behind an `&`, a numeric reference is read to its end and decoded. -/
theorem exists_decodesReference (hready : l.buffer.ready = []) (hrun : l.finished = false)
    (hstate : l.state = .characterReference) {ref : NumericReference}
    (hfaces : l.Faces (l.refStart + 1) (ref.raw.tail ++ rest)) (hends : ref.EndsBefore rest) :
    ∃ x, l.DecodesReference ref rest (codeCharacter ref.number) ref.causes x := by
  have hsize := (NumericReference.means_codeCharacter ref.number).size_le_body
  obtain ⟨x, hx, hagain⟩ := exists_readsReference hready hrun hstate hfaces
  rw [NumericReference.causes, ← NumericReference.codeFault?_min]
  rw [← codeCharacter_min] at hsize ⊢
  cases hclosed : ref.closed with
  | true =>
    rw [hclosed] at hx
    exact ⟨_, hx.semicolon hready hrun hagain hsize hclosed⟩
  | false =>
    rw [hclosed] at hx
    exact ⟨_, hx.unclosed hready hrun hagain hsize hclosed hends⟩

/-- The tokens with the one in front that a reference belongs to. -/
def receiver (l : Lexer) : TokenBuffer :=
  if l.returnState.isAttributeValue then l.buffer
  else l.buffer.continueAs l.locator l.returnState.textKind l.refStart

theorem flushReference_buffer (l : Lexer) (s : String) :
    (l.flushReference s).buffer = l.receiver.push s := by
  rw [flushReference, receiver]
  split <;> rfl

theorem continueAs_current (b : TokenBuffer) (loc : Locator) (kind : TokenKind) (start : Nat) :
    ∃ t, (b.continueAs loc kind start).current = some t := by
  unfold TokenBuffer.continueAs
  split
  · next h =>
    obtain ⟨t, ht, -⟩ := Option.map_eq_some_iff.1 h
    exact ⟨t, ht⟩
  · exact ⟨_, rfl⟩

/-- A reference is read where a token receives it. -/
theorem Tracks.receiver_current (h : l.Tracks cs taken) (hrun : l.finished = false)
    (hstate : l.state = .characterReference) : ∃ t, l.receiver.current = some t := by
  have hreach : ∃ f, l.InReference cs taken ['&'] f := by
    cases ha : l.again with
    | true => exact ⟨_, hstate ▸ (h.stays hrun ha).2⟩
    | false => exact ⟨_, hstate ▸ (h.moves hrun ha).2.2⟩
  obtain ⟨f, hin⟩ := hreach
  have hreaches := hin.reaches
  rw [receiver]
  cases hreturn : l.returnState with
  | attributeValueDoubleQuoted | attributeValueSingleQuoted | attributeValueUnquoted =>
    rw [hreturn] at hreaches
    obtain ⟨t, -, ht, -⟩ := hreaches.value
    exact ⟨t, ht⟩
  | data | rcdata | interpolationData => exact continueAs_current ..
  | _ =>
    rw [hreturn] at hreaches
    exact hreaches.elim

end Lexer

namespace Template

open NumericReference (Means)

/-- Wherever a template is read and an `&` starts a numeric reference, the lexer comes to the end of the
reference, however long it is, and goes back to its state without a number that is too large.  The
token that is built receives the one character that the number means.  That is never longer than the
reference, whose other bytes become gaps, and everything that is wrong is reported once. -/
theorem numericReference_decoded {text : String} {o : Options} {ts : List Token} {b : Builder}
    {l : Lexer} {rest : List Char} (h : (startOf text o).Lexes ts b l) (hready : l.buffer.ready = [])
    (hrun : l.finished = false) (hstate : l.state = .characterReference) (ref : NumericReference)
    (hfaces : l.Faces (l.refStart + 1) (ref.raw.tail ++ rest)) (hends : ref.EndsBefore rest) :
    ∃ c causes x t, l.DecodesReference ref rest c causes x ∧ x.breaches = [] ∧
      (l.receiver.current = some t ∧ x.buffer =
        { l.receiver with current := some { t with value := t.value ++ String.singleton c } }) ∧
      (Means ref.number c ∧ c.utf8Size ≤ ref.raw.length) ∧
      (causes.Nodup ∧ ∀ cause, cause ∈ causes ↔ ref.Wrong cause) := by
  have htracks := h.tracks (runs_startOf text o)
  obtain ⟨x, hx⟩ := Lexer.exists_decodesReference hready hrun hstate hfaces hends
  obtain ⟨t, ht⟩ := htracks.receiver_current hrun hstate
  have hmeans := NumericReference.means_codeCharacter ref.number
  refine ⟨_, _, x, t, hx, (hx.comesTo.tracks htracks).noBreach, ⟨ht, ?_⟩, ⟨hmeans, ?_⟩,
    ref.causes_nodup, fun cause => ref.mem_causes_iff⟩
  · rw [hx.buffer, Lexer.flushReference_buffer, TokenBuffer.push, ht]
    rfl
  · rw [NumericReference.raw, List.length_append]
    exact Nat.le_trans hmeans.size_le_body (Nat.le_add_right ..)

/-- A reference without a semicolon, whose number the code page has a character for. -/
def openCodePageReference : NumericReference where
  mark := none
  digits := ['1', '2', '8']
  closed := false
  mark_eq x hx := absurd hx (Option.not_mem_none x)
  digits_ne := List.cons_ne_nil _ _
  digits_all := List.all_eq_true.1 (by decide)

theorem numericReference_decoded_codePage : ∃ causes x,
    (startOf "&#128b" {}).lexer.advanceStep.DecodesReference openCodePageReference ['b'] '\u20ac' causes x ∧
    x.breaches = [] ∧ .controlCharacterReference ∈ causes := by
  have hstart : (startOf "&#128b" {}).lexer.Faces 0 "&#128b".toList := .next rfl rfl rfl
  obtain ⟨hfaces, cursor, log, heq⟩ := hstart.ampersand rfl
  have hbehind : (startOf "&#128b" {}).lexer.advanceStep.Faces
      ((startOf "&#128b" {}).lexer.advanceStep.refStart + 1)
      (openCodePageReference.raw.tail ++ ['b']) := by
    rw [show (startOf "&#128b" {}).lexer.advanceStep.refStart = 0 by rw [heq]]
    exact hfaces
  have hlexes := (Builder.Lexes.nothing (startOf "&#128b" {})).step rfl rfl
  have hends : openCodePageReference.EndsBefore ['b'] := .inr fun c hc => by
    obtain rfl : 'b' = c := Option.some.inj hc
    decide
  obtain ⟨c, causes, x, t, hx, hbreaches, -, ⟨hmeans, -⟩, -, hcauses⟩ :=
    numericReference_decoded hlexes (by rw [heq]; rfl) (by rw [heq]; rfl) (by rw [heq])
      openCodePageReference hbehind hends
  have hnumber : openCodePageReference.number = 128 := by decide
  refine ⟨causes, x, ?_, hbreaches, (hcauses _).2 (.number (.control ?_ ?_))⟩
  · rw [hnumber] at hmeans
    cases hmeans with
    | replaced h => omega
    | codePage h => exact Option.some.inj h ▸ hx
    | itself _ hpage _ => cases hpage
  · omega
  · rw [hnumber]
    decide

end Template
end TemplateSyntax
