/-!
# Byte offsets as 32-bit words

Offsets, lines and columns of a source file are natural numbers below `2 ^ 32`.  Arithmetic on
them is carried out on `Nat`; `Offset.check` is the one place where a result that does not fit
a word is refused.
-/

namespace TemplateSyntax

namespace Offset

/-- The first number that is no offset. -/
def limit : Nat := 0x100000000

/-- Passes the numbers that fit an offset. -/
def check (n : Nat) : Option Nat := if n < limit then some n else none

theorem check_eq_some_iff {n m : Nat} : check n = some m ↔ n = m ∧ n < limit := by
  unfold check
  split
  · simp_all
  · simp only [reduceCtorEq, false_iff]
    omega

end Offset

end TemplateSyntax
