import TemplateSyntax.Source.Locator

/-!
# From processed text back to the host file

Reading a template decodes character references and joins `\r\n`.  Each byte that has no
counterpart in the processed text is a *gap*.  A decoded character sits at the front of its raw
text and the gaps follow it, so a processed index maps past every gap at or before it.

An `OffsetMap` is a view on the gaps from some base offset on.  `offset` does the mapping,
`after` moves the base and `shift` adds a constant to every index, which takes off the text that
is put around a fragment before it is parsed.
-/

namespace TemplateSyntax

/-- The gaps of a template, the host offset of the processed index zero, the number of gaps
before it, and what is added to each index. -/
structure OffsetMap where
  gaps : Array Nat
  base : Nat
  firstGap : Nat
  shiftBy : Int
  deriving Repr, Inhabited

namespace OffsetMap

/-- The number of gaps before an offset. -/
def gapsBefore (gaps : Array Nat) (offset : Nat) : Nat :=
  gaps.foldl (fun n g => if g < offset then n + 1 else n) 0

/-- The map that starts at a host offset. -/
def atOffset (gaps : Array Nat) (offset : Nat) : OffsetMap :=
  ⟨gaps, offset, gapsBefore gaps offset, 0⟩

/-- The map of a whole template. -/
def ofGaps (origin : Origin) (gaps : Array Nat) : OffsetMap := atOffset gaps origin.offset

/-- The map on the same gaps that starts at another host offset and shifts nothing. -/
def after (m : OffsetMap) (offset : Nat) : OffsetMap := atOffset m.gaps offset

/-- The map that adds `delta` to each index first. -/
def shift (m : OffsetMap) (delta : Int) : OffsetMap := { m with shiftBy := m.shiftBy + delta }

/-- Shifts add up. -/
theorem shift_shift (m : OffsetMap) (a b : Int) : (m.shift a).shift b = m.shift (a + b) := by
  simp [shift, Int.add_assoc]

/-- How far an index lies from the base, in processed bytes: never before it, and a word. -/
def steps (m : OffsetMap) (index : Nat) : Nat := (index + m.shiftBy).toNat % Offset.limit

/-- Whether the `j`-th gap from the base on is at or before `target`, the gaps between not
counted. -/
def skips (m : OffsetMap) (target j : Nat) : Bool :=
  (m.gaps[m.firstGap + j]?.getD 0 : Int) - j ≤ target

/-- The number of gaps in `[lo, hi)`, plus `lo`, that `target` skips: a binary search, as a
skipped gap has only skipped gaps before it. -/
def search (m : OffsetMap) (target lo hi : Nat) : Nat :=
  if lo < hi then
    let mid := lo + (hi - lo) / 2
    if m.skips target mid then m.search target (mid + 1) hi else m.search target lo mid
  else lo
termination_by hi - lo

/-- The number of gaps that are skipped to reach a target. -/
def skipped (m : OffsetMap) (target : Nat) : Nat := m.search target 0 (m.gaps.size - m.firstGap)

/-- The host offset of a processed index. -/
def offset (m : OffsetMap) (index : Nat) : Nat :=
  let target := m.base + m.steps index
  target + m.skipped target

/-- What to add to a processed index to get its host offset. -/
def correction (m : OffsetMap) (index : Nat) : Int := (m.offset index : Int) - index

/-- The host span of a processed range. -/
def span (m : OffsetMap) (start stop : Nat) : Span := ⟨m.offset start, m.offset stop⟩

/-- Whether a number fits a signed word of 64 bits. -/
def fits64 (n : Int) : Bool := -0x8000000000000000 ≤ n && n < 0x8000000000000000

/-- `shift`, if the sum of the shifts fits its word. -/
def shift? (m : OffsetMap) (delta : Int) : Option OffsetMap :=
  if fits64 (m.shiftBy + delta) then some (m.shift delta) else none

/-- `offset`, if the shifted index and the offset fit their words. -/
def offset? (m : OffsetMap) (index : Nat) : Option Nat :=
  if fits64 (index + m.shiftBy) then Offset.check (m.offset index) else none

/-- `correction`, where there is an offset. -/
def correction? (m : OffsetMap) (index : Nat) : Option Int :=
  (m.offset? index).map fun o => (o : Int) - index

/-- `span`, where both ends have an offset. -/
def span? (m : OffsetMap) (start stop : Nat) : Option Span := do
  let start ← m.offset? start
  let stop ← m.offset? stop
  return ⟨start, stop⟩

end OffsetMap

end TemplateSyntax
