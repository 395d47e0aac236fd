import TemplateSyntax.Markup.Lexer.Step
import TemplateSyntax.Proofs.Position

/-! # Raw text and what a value has for it

A value is made of the raw text piece by piece: a character is copied, a line break becomes a
line feed, and a character reference becomes what it stands for.  A piece of a value is never
longer than its raw text, and the bytes that it is shorter by are the gaps: they come last in the
piece.  `Decodes` relates a range of the text to the pieces it is made of, with exactly their gaps
on record. -/

namespace TemplateSyntax

namespace NamedReference

theorem value_ne_empty : all.all (fun e => e.value.utf8ByteSize != 0) = true := by decide +kernel

end NamedReference

/-- The number that digits stand for. -/
def numeral (radix : Nat) (digits : List Char) : Nat :=
  digits.foldl (fun n c => n * radix + CharClass.digitValue c) 0

/-- The raw text of a character reference, and what it stands for. -/
inductive IsReference : List Char → List Char → Prop
  /-- A name with its semicolon. -/
  | terminated {e : NamedReference} (he : e ∈ NamedReference.all) :
    IsReference ('&' :: e.name.toList ++ [';']) e.value.toList
  /-- A name of the older standards. -/
  | legacy {e : NamedReference} (he : e ∈ NamedReference.all) (hl : e.legacy = true) :
    IsReference ('&' :: e.name.toList) e.value.toList
  | decimal {ds close : List Char} (hne : ds ≠ []) (hd : ∀ d ∈ ds, d.isDigit = true)
      (hc : close = [] ∨ close = [';']) :
    IsReference ('&' :: '#' :: ds ++ close) [Lexer.codeCharacter (numeral 10 ds)]
  | hexadecimal {x : Char} {ds close : List Char} (hx : x = 'x' ∨ x = 'X') (hne : ds ≠ [])
      (hd : ∀ d ∈ ds, CharClass.isHexDigit d = true) (hc : close = [] ∨ close = [';']) :
    IsReference ('&' :: '#' :: x :: ds ++ close) [Lexer.codeCharacter (numeral 16 ds)]

theorem IsReference.value_pos {raw value : List Char}
    (h : IsReference raw value) : 0 < Text.byteLength value := by
  cases h with
  | @terminated e he | @legacy e he _ =>
    have hv := List.all_eq_true.1 NamedReference.value_ne_empty e he
    rw [Text.byteLength_toList]
    simp only [bne_iff_ne] at hv
    omega
  | decimal | hexadecimal =>
    rw [Text.byteLength_cons]
    exact Nat.add_pos_left (Text.utf8Size_pos _) _

/-- Raw text, and what the value has for it. -/
structure Piece where
  raw : List Char
  value : List Char

namespace Piece

open Text (byteLength)

/-- The ways in which raw text turns into a piece of a value. -/
inductive Valid : Piece → Prop
  | char {c : Char} (hc : c ≠ '\r') : Valid ⟨[c], [c]⟩
  | lineBreak : Valid ⟨['\r'], ['\n']⟩
  | lineBreakPair : Valid ⟨['\r', '\n'], ['\n']⟩
  | reference {raw value : List Char} (h : IsReference raw value)
      (hle : byteLength value ≤ byteLength raw) : Valid ⟨raw, value⟩

/-- The raw text of pieces in a row. -/
def raws (ps : List Piece) : List Char := (ps.map raw).flatten

/-- The value of pieces in a row. -/
def values (ps : List Piece) : List Char := (ps.map value).flatten

/-- The gaps of pieces in a row, the first of which starts at `start`. -/
def gapsFrom (start : Nat) : List Piece → List Nat
  | [] => []
  | p :: ps =>
    List.range' (start + byteLength p.value) (byteLength p.raw - byteLength p.value) ++
      gapsFrom (start + byteLength p.raw) ps

@[simp] theorem raws_nil : raws [] = [] := rfl
@[simp] theorem values_nil : values [] = [] := rfl
@[simp] theorem raws_cons (p : Piece) (ps : List Piece) : raws (p :: ps) = p.raw ++ raws ps := rfl
@[simp] theorem values_cons (p : Piece) (ps : List Piece) :
    values (p :: ps) = p.value ++ values ps := rfl

@[simp] theorem raws_append (ps qs : List Piece) : raws (ps ++ qs) = raws ps ++ raws qs := by
  simp [raws]

@[simp] theorem values_append (ps qs : List Piece) :
    values (ps ++ qs) = values ps ++ values qs := by
  simp [values]

theorem gapsFrom_append (start : Nat) (ps qs : List Piece) :
    gapsFrom start (ps ++ qs) =
      gapsFrom start ps ++ gapsFrom (start + byteLength (raws ps)) qs := by
  induction ps generalizing start with
  | nil => rfl
  | cons p ps ih =>
    simp only [List.cons_append, gapsFrom, ih, raws_cons, Text.byteLength_append,
      List.append_assoc, Nat.add_assoc]

/-- The pieces of characters that are copied. -/
def copies (cs : List Char) : List Piece := cs.map fun c => ⟨[c], [c]⟩

@[simp] theorem raws_copies (cs : List Char) : raws (copies cs) = cs := by
  induction cs with
  | nil => rfl
  | cons c cs ih => exact congrArg (c :: ·) ih

@[simp] theorem values_copies (cs : List Char) : values (copies cs) = cs := by
  induction cs with
  | nil => rfl
  | cons c cs ih => exact congrArg (c :: ·) ih

theorem gapsFrom_copies (start : Nat) (cs : List Char) : gapsFrom start (copies cs) = [] := by
  induction cs generalizing start with
  | nil => rfl
  | cons c cs ih => simpa [copies, gapsFrom] using ih _

theorem Valid.value_pos {p : Piece} (h : p.Valid) : 0 < byteLength p.value := by
  cases h with
  | char => exact Nat.add_pos_left (Text.utf8Size_pos _) _
  | lineBreak | lineBreakPair => decide
  | reference h _ => exact h.value_pos

theorem Valid.value_le {p : Piece} (h : p.Valid) : byteLength p.value ≤ byteLength p.raw := by
  cases h with
  | char => exact Nat.le_refl _
  | lineBreak | lineBreakPair => decide
  | reference _ hle => exact hle

/-- The value of pieces in a row is not longer than their raw text. -/
theorem values_le {ps : List Piece} (hv : ∀ p ∈ ps, p.Valid) :
    byteLength (values ps) ≤ byteLength (raws ps) := by
  induction ps with
  | nil => exact Nat.le_refl 0
  | cons p ps ih =>
    have hp := (hv p (List.mem_cons_self ..)).value_le
    have := ih fun q hq => hv q (List.mem_cons_of_mem p hq)
    simp only [values_cons, raws_cons, Text.byteLength_append]
    omega

/-- The gaps of pieces lie behind the start and before the end. -/
theorem bounds_of_mem_gapsFrom {ps : List Piece} {start x : Nat} (hv : ∀ p ∈ ps, p.Valid)
    (hx : x ∈ gapsFrom start ps) : start < x ∧ x < start + byteLength (raws ps) := by
  induction ps generalizing start with
  | nil => simp [gapsFrom] at hx
  | cons p ps ih =>
    have hp := hv p (List.mem_cons_self ..)
    have hpos := hp.value_pos
    have hle := hp.value_le
    rw [raws_cons, Text.byteLength_append]
    rw [gapsFrom, List.mem_append, List.mem_range'_1] at hx
    rcases hx with hx | hx
    · omega
    · have := ih (fun q hq => hv q (List.mem_cons_of_mem p hq)) hx
      omega

end Piece

/-- The text from `lo` to `hi` is made of the pieces `ps`, and the gaps on record there are
theirs.  The end of the range is no gap. -/
structure Decodes (cs : List Char) (gap : Nat → Prop) (lo : Nat) (ps : List Piece) (hi : Nat) :
    Prop where
  valid : ∀ p ∈ ps, p.Valid
  between : Text.Between cs lo (Piece.raws ps) hi
  gaps : ∀ x, lo ≤ x → x ≤ hi → (gap x ↔ x ∈ Piece.gapsFrom lo ps)

namespace Decodes

variable {cs : List Char} {gap gap' : Nat → Prop} {lo mid hi : Nat} {ps qs : List Piece}

theorem nil {tail : List Char} (h : Text.From cs lo tail) (hg : ¬ gap lo) :
    Decodes cs gap lo [] lo := by
  refine ⟨by simp, h.between_nil, fun x hlo hhi => ?_⟩
  obtain rfl := Nat.le_antisymm hlo hhi
  simpa [Piece.gapsFrom] using hg

theorem append (h : Decodes cs gap lo ps mid) (h' : Decodes cs gap mid qs hi) :
    Decodes cs gap lo (ps ++ qs) hi := by
  have hmid : lo + Text.byteLength (Piece.raws ps) = mid := h.between.1.symm
  have hhi : mid + Text.byteLength (Piece.raws qs) = hi := h'.between.1.symm
  refine ⟨?_, ?_, fun x hlo hx => ?_⟩
  · intro p hp
    rcases List.mem_append.1 hp with hp | hp
    · exact h.valid p hp
    · exact h'.valid p hp
  · rw [Piece.raws_append]
    exact h.between.append h'.between
  · rw [Piece.gapsFrom_append, List.mem_append, hmid]
    by_cases hxm : x ≤ mid
    · rw [h.gaps x hlo hxm, iff_self_or]
      intro hq
      have := Piece.bounds_of_mem_gapsFrom h'.valid hq
      omega
    · rw [h'.gaps x (by omega) hx, iff_or_self]
      intro hp
      have := Piece.bounds_of_mem_gapsFrom h.valid hp
      omega

/-- Gaps that are recorded behind a range leave it as it is. -/
theorem mono (h : Decodes cs gap lo ps hi) (hg : ∀ x, x ≤ hi → (gap' x ↔ gap x)) :
    Decodes cs gap' lo ps hi :=
  ⟨h.valid, h.between, fun x hlo hhi => (hg x hhi).trans (h.gaps x hlo hhi)⟩

/-- A decoded range does not start with a gap. -/
theorem start (h : Decodes cs gap lo ps hi) : Decodes cs gap lo [] lo := by
  obtain ⟨tail, ht⟩ := h.between.from
  refine .nil ht fun hg => ?_
  have := Piece.bounds_of_mem_gapsFrom h.valid ((h.gaps lo (Nat.le_refl _) h.between.le).1 hg)
  omega

/-- One piece, with its gaps on record. -/
theorem single {p : Piece} (hp : p.Valid) (hb : Text.Between cs lo p.raw hi)
    (hg : ∀ x, lo ≤ x → x ≤ hi → (gap x ↔ lo + Text.byteLength p.value ≤ x ∧ x < hi)) :
    Decodes cs gap lo [p] hi := by
  have hle := hp.value_le
  have hhi := hb.1
  refine ⟨by simpa using hp, by simpa using hb, fun x hlo hx => ?_⟩
  rw [hg x hlo hx]
  simp only [Piece.gapsFrom, List.append_nil, List.mem_range'_1]
  omega

/-- Text without gaps that is copied. -/
theorem copies {raw : List Char} (hb : Text.Between cs lo raw hi) (hr : ∀ c ∈ raw, c ≠ '\r')
    (hg : ∀ x, lo ≤ x → x ≤ hi → ¬ gap x) : Decodes cs gap lo (Piece.copies raw) hi := by
  refine ⟨fun p hp => ?_, by rwa [Piece.raws_copies], fun x hlo hhi => ?_⟩
  · obtain ⟨c, hc, rfl⟩ := List.mem_map.1 hp
    exact .char (hr c hc)
  · simpa [Piece.gapsFrom_copies] using hg x hlo hhi

/-- The value of a range is not longer than the range. -/
theorem value_le (h : Decodes cs gap lo ps hi) :
    lo + Text.byteLength (Piece.values ps) ≤ hi := by
  have := Piece.values_le h.valid
  have := h.between.1
  omega

end Decodes

/-- The text from `lo` to `hi` decodes to `value`. -/
def Decoded (cs : List Char) (gap : Nat → Prop) (lo : Nat) (value : String) (hi : Nat) : Prop :=
  ∃ ps, Decodes cs gap lo ps hi ∧ Piece.values ps = value.toList

namespace Decoded

variable {cs : List Char} {gap gap' : Nat → Prop} {lo mid hi : Nat} {v w : String}

theorem append (h : Decoded cs gap lo v mid) (h' : Decoded cs gap mid w hi) :
    Decoded cs gap lo (v ++ w) hi := by
  obtain ⟨ps, hps, hv⟩ := h
  obtain ⟨qs, hqs, hw⟩ := h'
  exact ⟨ps ++ qs, hps.append hqs, by rw [Piece.values_append, hv, hw, String.toList_append]⟩

theorem start (h : Decoded cs gap lo v hi) : Decoded cs gap lo "" lo := by
  obtain ⟨ps, hps, -⟩ := h
  exact ⟨[], hps.start, rfl⟩

theorem mono (h : Decoded cs gap lo v hi) (hg : ∀ x, x ≤ hi → (gap' x ↔ gap x)) :
    Decoded cs gap' lo v hi := by
  obtain ⟨ps, hps, hv⟩ := h
  exact ⟨ps, hps.mono hg, hv⟩

theorem le (h : Decoded cs gap lo v hi) : lo ≤ hi := by
  obtain ⟨ps, hps, -⟩ := h
  exact hps.between.le

theorem le_size (h : Decoded cs gap lo v hi) : hi ≤ Text.byteLength cs := by
  obtain ⟨ps, hps, -⟩ := h
  exact hps.between.le_size

end Decoded

end TemplateSyntax
