import TemplateSyntax.Markup.Lexer.Cursor
import TemplateSyntax.Proofs.Piece

/-! # The cursor and the text

The cursor is on a character of the text, or at its end, and what it knows is the text from
there on.  The line feed of a joined `\r\n` is the only byte that it drops. -/

namespace TemplateSyntax

open Text (byteLength From Between)

namespace Cursor

/-- The current character is what the text from the cursor on starts with, and the unread text
is what follows it. -/
inductive Reads : Cursor → Prop
  | atEnd (n : Nat) : Reads ⟨[], n, [], n, none⟩
  | pair (rest : List Char) (n : Nat) :
    Reads ⟨rest, n + 2, '\r' :: '\n' :: rest, n, some '\n'⟩
  | lone (rest : List Char) (n : Nat) (h : rest.head? ≠ some '\n') :
    Reads ⟨rest, n + 1, '\r' :: rest, n, some '\n'⟩
  | char (c : Char) (rest : List Char) (n : Nat) (h : c ≠ '\r') :
    Reads ⟨rest, n + c.utf8Size, c :: rest, n, some c⟩

/-- The index of the line feed that is a part of the current character. -/
def dropped? (c : Cursor) : Option Nat :=
  match c.here with
  | '\r' :: '\n' :: _ => some (c.start + 1)
  | _ => none

theorem advance_reads (c : Cursor) : c.advance.Reads := by
  unfold advance
  split
  · exact .atEnd c.index
  · next rest hr => rw [hr]; exact .pair rest c.index
  · next rest hne hr =>
    rw [hr]
    refine .lone rest c.index fun h => ?_
    cases rest with
    | nil => simp at h
    | cons d rest =>
      obtain rfl : d = '\n' := Option.some.inj h
      exact hne rest rfl
  · next ch rest h1 h2 hr => rw [hr]; exact .char ch rest c.index fun h => h2 h

@[simp] theorem advance_start (c : Cursor) : c.advance.start = c.index := by
  unfold advance
  split <;> rfl

@[simp] theorem advance_here (c : Cursor) : c.advance.here = c.rest := by
  unfold advance
  split
  · next hr => exact hr.symm
  all_goals rfl

theorem dropped?_advance (c : Cursor) : c.advance.dropped? = c.droppedLineFeed? := by
  rw [dropped?, advance_here, advance_start]
  rfl

end Cursor

/-- The cursor is on a character of the text or at its end. -/
structure On (cs : List Char) (c : Cursor) : Prop where
  here : From cs c.start c.here
  reads : c.Reads

namespace On

variable {cs : List Char} {c : Cursor} {ch : Char} {gap : Nat → Prop}

theorem advance (h : From cs c.index c.rest) : On cs c.advance :=
  ⟨by rw [Cursor.advance_start, Cursor.advance_here]; exact h, c.advance_reads⟩

theorem start_le_size (h : On cs c) : c.start ≤ byteLength cs := h.here.le_size

/-- The text behind the current character. -/
theorem next (h : On cs c) : From cs c.index c.rest := by
  have hh := h.here
  cases h.reads with
  | atEnd n => exact hh
  | pair rest n => exact hh.cons.cons
  | lone rest n => exact hh.cons
  | char d rest n => exact hh.cons

theorem start_le_index (h : On cs c) : c.start ≤ c.index := by
  cases h.reads with
  | atEnd n => exact Nat.le_refl n
  | pair rest n | lone rest n | char d rest n => exact Nat.le_add_right n _

theorem index_le_size (h : On cs c) : c.index ≤ byteLength cs := h.next.le_size

/-- A line feed that is dropped is a part of the current character. -/
theorem dropped_lt {x : Nat} (h : On cs c) (hx : c.dropped? = some x) : x < c.index := by
  cases h.reads with
  | atEnd n => simp [Cursor.dropped?] at hx
  | pair rest n =>
    simp only [Cursor.dropped?, Option.some.injEq] at hx
    exact hx ▸ Nat.lt_succ_self (n + 1)
  | lone rest n hr =>
    simp only [Cursor.dropped?] at hx
    split at hx
    · next heq =>
      simp only [List.cons.injEq, true_and] at heq
      simp [heq] at hr
    · simp at hx
  | char d rest n hd =>
    simp only [Cursor.dropped?] at hx
    split at hx
    · next heq => exact absurd (List.cons.inj heq).1 hd
    · simp at hx

theorem char_of_here (h : On cs c) {ch : Char} {tail : List Char} (hh : c.here = ch :: tail)
    (hr : ch ≠ '\r') : c.char = some ch := by
  cases h.reads with
  | atEnd n => simp at hh
  | pair rest n | lone rest n => simp at hh; exact absurd hh.1.symm hr
  | char d rest n hd => rw [(List.cons.inj hh).1]

/-- At the end of the text nothing is left. -/
theorem eof (h : On cs c) (hc : c.char = none) :
    c.start = byteLength cs ∧ c.index = byteLength cs ∧ c.here = [] := by
  have hs := h.here.size
  cases h.reads with
  | atEnd n => exact ⟨hs, hs, rfl⟩
  | pair | lone | char => simp at hc

/-- A character that is no line feed stands in the text as it is. -/
theorem plain (h : On cs c) (hc : c.char = some ch) (hch : ch ≠ '\n') :
    c.here = ch :: c.rest ∧ c.index = c.start + ch.utf8Size ∧ c.dropped? = none := by
  cases h.reads with
  | atEnd n => simp at hc
  | pair rest n | lone rest n => simp at hc; exact absurd hc.symm hch
  | char d rest n hd =>
    obtain rfl : d = ch := Option.some.inj hc
    refine ⟨rfl, rfl, ?_⟩
    simp only [Cursor.dropped?]
    split
    · next heq => exact absurd (List.cons.inj heq).1 hd
    · rfl

theorem between (h : On cs c) (hc : c.char = some ch) (hch : ch ≠ '\n') :
    Between cs c.start [ch] c.index := by
  obtain ⟨hh, hi, -⟩ := h.plain hc hch
  have hb := h.here
  rw [hh] at hb
  rw [hi]
  exact hb.between_cons

/-- The current character is not longer than its raw text. -/
theorem size_le (h : On cs c) (hc : c.char = some ch) : c.start + ch.utf8Size ≤ c.index := by
  cases h.reads with
  | atEnd n => simp at hc
  | pair rest n | lone rest n =>
    obtain rfl : '\n' = ch := Option.some.inj hc
    exact Nat.add_le_add_left (by decide) n
  | char d rest n hd =>
    obtain rfl : d = ch := Option.some.inj hc
    exact Nat.le_refl _

/-- A character decodes its raw text.  `gap` are the gaps on record. -/
theorem decodes (h : On cs c) (hc : c.char = some ch)
    (hg : ∀ x, c.start ≤ x → (gap x ↔ c.dropped? = some x)) :
    ∃ ps, Decodes cs gap c.start ps c.index ∧ Piece.values ps = [ch] ∧
      ∀ q ∈ Piece.raws ps, q = ch ∨ q = '\r' ∨ q = '\n' := by
  have hn := h.next
  have hb := h.here
  cases h.reads with
  | atEnd n => simp at hc
  | pair rest n =>
    obtain rfl : '\n' = ch := Option.some.inj hc
    have hp : Between cs n ['\r', '\n'] (n + 2) := hb.between_cons.append hb.cons.between_cons
    refine ⟨[⟨['\r', '\n'], ['\n']⟩], .single .lineBreakPair hp fun x hlo hhi => ?_, rfl,
      by simp [Piece.raws]⟩
    rw [hg x hlo]
    have hv : byteLength ['\n'] = 1 := rfl
    simp only [Cursor.dropped?, Option.some.injEq, hv]
    omega
  | lone rest n hr =>
    obtain rfl : '\n' = ch := Option.some.inj hc
    refine ⟨[⟨['\r'], ['\n']⟩], .single .lineBreak hb.between_cons fun x hlo hhi => ?_, rfl,
      by simp [Piece.raws]⟩
    have hd : Cursor.dropped? ⟨rest, n + 1, '\r' :: rest, n, some '\n'⟩ = none := by
      simp only [Cursor.dropped?]
      split
      · next heq =>
        simp only [List.cons.injEq, true_and] at heq
        simp [heq] at hr
      · rfl
    rw [hg x hlo, hd]
    have hv : byteLength ['\n'] = 1 := rfl
    simp only [reduceCtorEq, false_iff, hv]
    have : '\r'.utf8Size = 1 := rfl
    omega
  | char d rest n hd =>
    obtain rfl : d = ch := Option.some.inj hc
    refine ⟨[⟨[d], [d]⟩], .single (.char hd) hb.between_cons fun x hlo hhi => ?_, rfl,
      by simp [Piece.raws]⟩
    by_cases hnl : d = '\n'
    · subst hnl
      rw [hg x hlo]
      simp [Cursor.dropped?]
    · rw [hg x hlo, (h.plain rfl hnl).2.2]
      simp

end On
end TemplateSyntax
