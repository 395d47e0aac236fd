import TemplateSyntax.Text.Bytes

/-!
# Spans

A span is a half-open range of byte offsets of the host file.  Spans whose end lies before
their start can be written down; they have no length and are no range.
-/

namespace TemplateSyntax

/-- The half-open range of offsets from `start` to `stop`. -/
structure Span where
  start : Nat
  stop : Nat
  deriving DecidableEq, Repr, Inhabited

namespace Span

/-- The span of no bytes at an offset. -/
def empty (offset : Nat) : Span := ⟨offset, offset⟩

/-- The number of bytes, which a span that ends before it starts does not have. -/
def length? (s : Span) : Option Nat := if s.start ≤ s.stop then some (s.stop - s.start) else none

/-- Whether the two ends coincide. -/
def isEmpty (s : Span) : Bool := s.start == s.stop

/-- Whether the offset is that of a byte in the span. -/
def contains (s : Span) (offset : Nat) : Bool := s.start ≤ offset && offset < s.stop

/-- Whether both ends of `other` lie within `s`. -/
def containsSpan (s other : Span) : Bool := s.start ≤ other.start && other.stop ≤ s.stop

/-- From the earlier start to the later end. -/
def cover (s other : Span) : Span := ⟨min s.start other.start, max s.stop other.stop⟩

/-- Both ends moved. -/
def map (f : Nat → Nat) (s : Span) : Span := ⟨f s.start, f s.stop⟩

/-- The span with another end. -/
def withStop (s : Span) (stop : Nat) : Span := { s with stop }

/-- The span as a proper range, which it is when it does not end before it starts. -/
def range? (s : Span) : Option Span := if s.start ≤ s.stop then some s else none

/-- The part of `text` that the span covers, where `base` is the offset of its first byte. -/
def slice (s : Span) (text : String) (base : Nat) : String :=
  Text.sliceClamped text (s.start - base) (s.stop - base)

@[simp] theorem map_start (f : Nat → Nat) (s : Span) : (s.map f).start = f s.start := rfl

@[simp] theorem map_stop (f : Nat → Nat) (s : Span) : (s.map f).stop = f s.stop := rfl

@[simp] theorem map_empty (f : Nat → Nat) (offset : Nat) :
    (empty offset).map f = empty (f offset) := rfl

@[simp] theorem map_map (f g : Nat → Nat) (s : Span) : (s.map f).map g = s.map (g ∘ f) := rfl

theorem length?_isSome_iff (s : Span) : s.length?.isSome ↔ s.start ≤ s.stop := by
  unfold length?
  split <;> simp_all

theorem containsSpan_iff (s other : Span) :
    s.containsSpan other = true ↔ s.start ≤ other.start ∧ other.stop ≤ s.stop := by
  simp [containsSpan]

end Span

end TemplateSyntax
