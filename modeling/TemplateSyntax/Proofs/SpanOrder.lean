import TemplateSyntax.Source.Span

/-! # Spans in order

`InOrder lo spans hi` says that spans stand between two offsets, one behind the other.  The
attributes of a tag, the units of a template and the children of a node do so. -/

namespace TemplateSyntax

/-- The spans do not end before they start, follow each other, and lie between `lo` and `hi`. -/
def InOrder (lo : Nat) : List Span → Nat → Prop
  | [], hi => lo ≤ hi
  | s :: ss, hi => lo ≤ s.start ∧ s.start ≤ s.stop ∧ InOrder s.stop ss hi

namespace InOrder

variable {lo lo' hi hi' mid : Nat} {s : Span} {ss ss' : List Span}

@[simp] theorem nil_iff : InOrder lo [] hi ↔ lo ≤ hi := Iff.rfl

@[simp] theorem cons_iff :
    InOrder lo (s :: ss) hi ↔ lo ≤ s.start ∧ s.start ≤ s.stop ∧ InOrder s.stop ss hi := Iff.rfl

theorem le (h : InOrder lo ss hi) : lo ≤ hi := by
  induction ss generalizing lo with
  | nil => exact h
  | cons s ss ih =>
    obtain ⟨h1, h2, h3⟩ := h
    exact Nat.le_trans h1 (Nat.le_trans h2 (ih h3))

theorem mono (h : InOrder lo ss hi) (hlo : lo' ≤ lo) (hhi : hi ≤ hi') : InOrder lo' ss hi' := by
  induction ss generalizing lo lo' with
  | nil => exact Nat.le_trans hlo (Nat.le_trans h hhi)
  | cons s ss ih =>
    obtain ⟨h1, h2, h3⟩ := h
    exact ⟨Nat.le_trans hlo h1, h2, ih h3 (Nat.le_refl _)⟩

theorem append_iff : InOrder lo (ss ++ ss') hi ↔ ∃ mid, InOrder lo ss mid ∧ InOrder mid ss' hi := by
  induction ss generalizing lo with
  | nil =>
    refine ⟨fun h => ⟨lo, Nat.le_refl lo, h⟩, fun ⟨mid, h, h'⟩ => ?_⟩
    exact h'.mono h (Nat.le_refl _)
  | cons s ss ih =>
    rw [List.cons_append, cons_iff, ih]
    constructor
    · rintro ⟨h1, h2, mid, h3, h4⟩
      exact ⟨mid, ⟨h1, h2, h3⟩, h4⟩
    · rintro ⟨mid, ⟨h1, h2, h3⟩, h4⟩
      exact ⟨h1, h2, mid, h3, h4⟩

theorem append (h : InOrder lo ss mid) (h' : InOrder mid ss' hi) : InOrder lo (ss ++ ss') hi :=
  append_iff.2 ⟨mid, h, h'⟩

theorem snoc_iff : InOrder lo (ss ++ [s]) hi ↔
    InOrder lo ss s.start ∧ s.start ≤ s.stop ∧ s.stop ≤ hi := by
  rw [append_iff]
  constructor
  · rintro ⟨mid, h, h1, h2, h3⟩
    exact ⟨h.mono (Nat.le_refl _) h1, h2, h3⟩
  · rintro ⟨h, h1, h2⟩
    exact ⟨s.start, h, Nat.le_refl _, h1, h2⟩

/-- Each of the spans lies between the offsets. -/
theorem of_mem (h : InOrder lo ss hi) (hs : s ∈ ss) :
    lo ≤ s.start ∧ s.start ≤ s.stop ∧ s.stop ≤ hi := by
  induction ss generalizing lo with
  | nil => simp at hs
  | cons d ss ih =>
    obtain ⟨h1, h2, h3⟩ := h
    rcases List.mem_cons.1 hs with rfl | hs
    · exact ⟨h1, h2, h3.le⟩
    · obtain ⟨h4, h5⟩ := ih h3 hs
      exact ⟨Nat.le_trans h1 (Nat.le_trans h2 h4), h5⟩

/-- Spans in order lie between the first and the last of them. -/
theorem tighten {a b : Span} (h : InOrder lo ss hi) (ha : ss.head? = some a)
    (hb : ss.getLast? = some b) : InOrder a.start ss b.stop := by
  obtain ⟨init, rfl⟩ := List.getLast?_eq_some_iff.1 hb
  obtain ⟨hinit, hle, -⟩ := snoc_iff.1 h
  refine snoc_iff.2 ⟨?_, hle, Nat.le_refl _⟩
  cases init with
  | nil =>
    obtain rfl : b = a := by simpa using ha
    exact Nat.le_refl _
  | cons s init =>
    obtain rfl : s = a := by simpa using ha
    exact ⟨Nat.le_refl _, hinit.2⟩

/-- A span ends before the next one starts. -/
theorem next {i : Nat} {s' : Span} (h : InOrder lo ss hi) (hs : ss[i]? = some s)
    (hs' : ss[i + 1]? = some s') : s.stop ≤ s'.start := by
  induction ss generalizing lo i with
  | nil => simp at hs
  | cons d ss ih =>
    obtain ⟨h1, h2, h3⟩ := h
    cases i with
    | zero =>
      obtain rfl : d = s := by simpa using hs
      cases ss with
      | nil => simp at hs'
      | cons d' ss =>
        obtain rfl : d' = s' := by simpa using hs'
        exact h3.1
    | succ i => exact ih h3 (by simpa using hs) (by simpa using hs')

/-- Each span ends before any of those behind it starts. -/
theorem pairwise (h : InOrder lo ss hi) : ss.Pairwise fun a b => a.stop ≤ b.start := by
  induction ss generalizing lo with
  | nil => exact .nil
  | cons s ss ih => exact .cons (fun s' hs' => (h.2.2.of_mem hs').1) (ih h.2.2)

end InOrder
end TemplateSyntax
