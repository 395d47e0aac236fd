import Mathlib.Data.List.Sort
import TemplateSyntax.Proofs.OffsetMap
import TemplateSyntax.Proofs.ReadingMove

/-! # The gaps of relocated markup

A map looks at the gaps from its base on.  Where these have moved with the base, and all others stand
behind the answer, it answers the same, moved. -/

namespace TemplateSyntax

namespace OffsetMap

variable {gaps gaps' : Array Nat} {b : Nat}

/-- The number of gaps that are skipped is the only one with skipped gaps in front of it and none that
is skipped at it. -/
theorem skipped_unique (hg : gaps.toList.Pairwise (· < ·)) {target count : Nat}
    (hle : count ≤ (laterGaps gaps b).length)
    (hskip : ∀ j, (hj : j < count) → (laterGaps gaps b)[j] ≤ target + j)
    (hstop : ∀ hlt : count < (laterGaps gaps b).length,
      target + count < (laterGaps gaps b)[count]) :
    (atOffset gaps b).skipped target = count := by
  obtain ⟨hle', hskip', hstop'⟩ := skipped_spec (b := b) hg target
  apply Nat.le_antisymm
  · apply Nat.le_of_not_lt
    intro hlt
    have hskipped := hskip' count hlt
    rw [skips_iff hg (by omega)] at hskipped
    have := hstop (by omega)
    omega
  · apply Nat.le_of_not_lt
    intro hlt
    have hstops := hstop' (by omega)
    rw [← Bool.not_eq_true, skips_iff hg (by omega)] at hstops
    exact hstops (hskip _ hlt)

/-- The offset of an index: all gaps that it skips are behind the indices in front of it, and the next
gap stands behind it. -/
theorem offset_spec (hg : gaps.toList.Pairwise (· < ·)) (i : Nat) :
    ∃ count, (atOffset gaps b).offset i = b + (atOffset gaps b).steps i + count ∧
      count ≤ (laterGaps gaps b).length ∧
      (∀ j, (hj : j < count) → (hlt : j < (laterGaps gaps b).length) →
        (laterGaps gaps b)[j] ≤ b + (atOffset gaps b).steps i + j) ∧
      ∀ hlt : count < (laterGaps gaps b).length,
        (atOffset gaps b).offset i < (laterGaps gaps b)[count] := by
  obtain ⟨hle, hskip, hstop⟩ := skipped_spec (b := b) hg (b + (atOffset gaps b).steps i)
  refine ⟨(atOffset gaps b).skipped (b + (atOffset gaps b).steps i), rfl, hle,
    fun j hj hlt => (skips_iff hg hlt).1 (hskip j hj), fun hlt => ?_⟩
  have hstops := hstop hlt
  rw [← Bool.not_eq_true, skips_iff hg hlt] at hstops
  exact Nat.lt_of_not_le hstops

theorem le_of_mem_laterGaps {g : Nat} (h : g ∈ laterGaps gaps b) : b ≤ g := by
  simpa using (List.mem_filter.1 h).2

/-- A map whose gaps have moved with its base, in front of others that are not reached, answers the
same, moved. -/
theorem offset_move (hg : gaps.toList.Pairwise (· < ·)) (hg' : gaps'.toList.Pairwise (· < ·))
    {f : Nat → Nat} (hf : ∀ k, f (b + k) = f b + k) {others : List Nat}
    (hlater : laterGaps gaps' (f b) = (laterGaps gaps b).map f ++ others) {i : Nat}
    (hothers : ∀ x ∈ others, f ((atOffset gaps b).offset i) < x) :
    (atOffset gaps' (f b)).offset i = f ((atOffset gaps b).offset i) := by
  obtain ⟨count, hoffset, hle, hskip, hstop⟩ := offset_spec (b := b) hg i
  have hmoved : f ((atOffset gaps b).offset i) = f b + (atOffset gaps b).steps i + count := by
    rw [hoffset, Nat.add_assoc, hf, Nat.add_assoc]
  have hfront : ∀ j, (hj : j < (laterGaps gaps b).length) →
      (hlt : j < (laterGaps gaps' (f b)).length) → b ≤ (laterGaps gaps b)[j] ∧
        (laterGaps gaps' (f b))[j] = f b + ((laterGaps gaps b)[j] - b) := by
    intro j hj hlt
    have hbase := le_of_mem_laterGaps (List.getElem_mem hj)
    have hget : (laterGaps gaps' (f b))[j]? = some (f (laterGaps gaps b)[j]) := by
      rw [hlater, List.getElem?_append_left (by rwa [List.length_map]), List.getElem?_map,
        List.getElem?_eq_getElem hj, Option.map_some]
    refine ⟨hbase, ?_⟩
    rw [(List.getElem?_eq_some_iff.1 hget).2, ← hf]
    congr 1
    omega
  have hlen : (laterGaps gaps b).length ≤ (laterGaps gaps' (f b)).length := by
    rw [hlater, List.length_append, List.length_map]
    exact Nat.le_add_right _ _
  have hskipped : (atOffset gaps' (f b)).skipped (f b + (atOffset gaps b).steps i) = count := by
    refine skipped_unique hg' (by omega) (fun j hj => ?_) fun hlt => ?_
    · obtain ⟨hbase, heq⟩ := hfront j (by omega) (by omega)
      have := hskip j hj (by omega)
      omega
    · by_cases hin : count < (laterGaps gaps b).length
      · obtain ⟨hbase, heq⟩ := hfront count hin hlt
        have := hstop hin
        omega
      · have hget : (laterGaps gaps' (f b))[count] ∈ others := by
          have hmem : (laterGaps gaps' (f b))[count]? = others[count - (laterGaps gaps b).length]? := by
            rw [hlater, List.getElem?_append_right (by rw [List.length_map]; omega),
              List.length_map]
          rw [List.getElem?_eq_getElem hlt] at hmem
          exact List.mem_of_getElem? hmem.symm
        have := hothers _ hget
        omega
  rw [hmoved, ← hskipped]
  rfl

/-- No index up to the size of a value is mapped behind `stop`, where the bytes of the value and the
gaps make up the text up to there. -/
theorem offset_le (hg : gaps.toList.Pairwise (· < ·)) {i size stop : Nat} (hstop : stop ∉ gaps)
    (hcount : b + size + (laterGaps gaps b).countP (· < stop) = stop) (hi : i ≤ size) :
    (atOffset gaps b).offset i ≤ stop := by
  have hsteps : (atOffset gaps b).steps i ≤ i := by
    have hindex : ((i : Int) + 0).toNat = i := by omega
    rw [steps, show (atOffset gaps b).shiftBy = 0 from rfl, hindex]
    exact Nat.mod_le _ _
  have hle : b + (atOffset gaps b).steps i ≤ b + size := by omega
  have hskipped := skipped_mono (b := b) hg hle
  rw [skipped_eq hg hstop hcount] at hskipped
  have hoffset : (atOffset gaps b).offset i =
      b + (atOffset gaps b).steps i + (atOffset gaps b).skipped (b + (atOffset gaps b).steps i) := rfl
  omega

/-- The gaps from a base on are those that have moved, in front of the others. -/
theorem laterGaps_move (hg : gaps.toList.Pairwise (· < ·)) (hg' : gaps'.toList.Pairwise (· < ·))
    {f : Nat → Nat} (hf : ∀ {x y}, f x < f y ↔ x < y) {others : List Nat}
    (hothers : others.Pairwise (· < ·)) (hbehind : ∀ x ∈ others, f b ≤ x ∧ ∀ g ∈ gaps, f g < x)
    (hmem : ∀ x, f b ≤ x → (x ∈ gaps' ↔ (∃ g ∈ gaps, f g = x) ∨ x ∈ others)) :
    laterGaps gaps' (f b) = (laterGaps gaps b).map f ++ others := by
  have hle : ∀ {x y}, f x ≤ f y ↔ x ≤ y := by
    intro x y
    rw [← Nat.not_lt, hf, Nat.not_lt]
  have hsorted : ((laterGaps gaps b).map f ++ others).Pairwise (· < ·) := by
    refine List.pairwise_append.2 ⟨?_, hothers, fun y hy x hx => ?_⟩
    · exact (laterGaps_pairwise hg).map f fun _ _ hlt => hf.2 hlt
    · obtain ⟨g, hmem, rfl⟩ := List.mem_map.1 hy
      exact (hbehind x hx).2 g (Array.mem_toList_iff.1 (List.mem_filter.1 hmem).1)
  refine (laterGaps_pairwise hg').eq_of_mem_iff hsorted fun x => ?_
  rw [List.mem_append, List.mem_map]
  constructor
  · intro hx
    have hbase := le_of_mem_laterGaps hx
    rcases (hmem x hbase).1 (Array.mem_toList_iff.1 (List.mem_filter.1 hx).1) with ⟨g, hg, rfl⟩ | hx
    · refine .inl ⟨g, List.mem_filter.2 ⟨Array.mem_toList_iff.2 hg, ?_⟩, rfl⟩
      simpa using hle.1 hbase
    · exact .inr hx
  · rintro (⟨g, hg, rfl⟩ | hx)
    · have hbase := hle.2 (le_of_mem_laterGaps hg)
      refine List.mem_filter.2 ⟨Array.mem_toList_iff.2 ?_, by simpa using hbase⟩
      exact (hmem _ hbase).2 (.inl ⟨g, Array.mem_toList_iff.1 (List.mem_filter.1 hg).1, rfl⟩)
    · have hbase := (hbehind x hx).1
      refine List.mem_filter.2 ⟨Array.mem_toList_iff.2 ?_, by simpa using hbase⟩
      exact (hmem x hbase).2 (.inr hx)

end OffsetMap

/-- A text is mapped to the place that it has moved to, if the gaps that it may skip have moved
there. -/
theorem Reading.maps_of_gaps {m : Move} {r r' : Reading} {code : List Char} {start : Nat}
    (hg : r.map.gaps.toList.Pairwise (· < ·)) (hg' : r'.map.gaps.toList.Pairwise (· < ·))
    (hadd : ∀ k, m.offset (start + k) = m.offset start + k) {others : List Nat}
    (hlater : OffsetMap.laterGaps r'.map.gaps (m.offset start) =
      (OffsetMap.laterGaps r.map.gaps start).map m.offset ++ others)
    (hothers : ∀ i ≤ Text.byteLength code, ∀ x ∈ others,
      m.offset ((r.map.after start).offset i) < x) : r.Maps m r' code start :=
  fun i hi => OffsetMap.offset_move hg hg' hadd hlater (hothers i hi)

end TemplateSyntax
