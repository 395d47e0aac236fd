import TemplateSyntax.Markup.Lexer.Pull
import TemplateSyntax.Proofs.Piece
import TemplateSyntax.Source.OffsetMap

/-! # Exactness of offset maps

The gaps of a map are in increasing order, so that a gap less the number of gaps before it never
decreases: the binary search finds the number of gaps that an index skips.  At a border between
two pieces of a decoded range these are the gaps of the pieces in front of it, and the map answers
where their raw text ends. -/

namespace TemplateSyntax

/-! ## Increasing lists -/

theorem getElem_add_le {l : List Nat} (hl : l.Pairwise (· < ·)) {i j : Nat} (hij : i ≤ j)
    (hj : j < l.length) : l[i] + (j - i) ≤ l[j] := by
  induction j with
  | zero =>
    obtain rfl : i = 0 := by omega
    exact Nat.le_refl _
  | succ j ih =>
    by_cases hi : i = j + 1
    · subst hi
      simp
    · have h1 := ih (by omega) (by omega)
      have h2 : l[j] < l[j + 1] := List.pairwise_iff_getElem.1 hl j (j + 1) _ _ (by omega)
      omega

theorem getElem_lt_iff {l : List Nat} (hl : l.Pairwise (· < ·)) {x j : Nat}
    (hj : j < l.length) : l[j] < x ↔ j < l.countP (· < x) := by
  induction l generalizing j with
  | nil => simp at hj
  | cons a l ih =>
    obtain ⟨ha, hl⟩ := List.pairwise_cons.1 hl
    by_cases hax : a < x
    · rw [List.countP_cons_of_pos (by simpa using hax)]
      cases j with
      | zero => simpa using hax
      | succ j =>
        rw [List.getElem_cons_succ, ih hl]
        omega
    · have hz : l.countP (· < x) = 0 := by
        rw [List.countP_eq_zero]
        intro y hy
        have := ha y hy
        simp
        omega
      rw [List.countP_cons_of_neg (by simpa using hax), hz]
      have hle : a ≤ (a :: l)[j] := by
        cases j with
        | zero => simp
        | succ j => exact Nat.le_of_lt (ha _ (List.getElem_mem _))
      omega

theorem drop_countP_lt {l : List Nat} (hl : l.Pairwise (· < ·)) (x : Nat) :
    l.drop (l.countP (· < x)) = l.filter (x ≤ ·) := by
  induction l with
  | nil => rfl
  | cons a l ih =>
    obtain ⟨ha, hl⟩ := List.pairwise_cons.1 hl
    by_cases hax : a < x
    · rw [List.countP_cons_of_pos (by simpa using hax), List.drop_succ_cons, ih hl,
        List.filter_cons_of_neg (by simpa using hax)]
    · have hge : ∀ y ∈ a :: l, x ≤ y := by
        intro y hy
        rcases List.mem_cons.1 hy with rfl | hy
        · omega
        · have := ha y hy
          omega
      rw [List.filter_eq_self.2 (by simpa using hge), List.countP_eq_zero.2, List.drop_zero]
      intro y hy
      simpa using hge y hy

/-- Erasing repetitions makes a sorted list strictly increasing and keeps its elements.  The
elements in front of `a` are in `acc`, the last one first. -/
theorem eraseReps_loop_spec (as acc : List Nat) (a : Nat) (hs : (a :: as).Pairwise (· ≤ ·))
    (hacc : acc.Pairwise (· > ·)) (hlt : ∀ y ∈ acc, y < a) :
    (List.eraseRepsBy.loop (· == ·) a as acc).Pairwise (· < ·) ∧
      ∀ x, x ∈ List.eraseRepsBy.loop (· == ·) a as acc ↔ x ∈ acc ∨ x ∈ a :: as := by
  induction as generalizing a acc with
  | nil =>
    have hp : (a :: acc).Pairwise (· > ·) := List.pairwise_cons.2 ⟨hlt, hacc⟩
    refine ⟨List.pairwise_reverse.2 hp, fun x => ?_⟩
    simp [List.eraseRepsBy.loop, or_comm]
  | cons b as ih =>
    obtain ⟨hle, hs'⟩ := List.pairwise_cons.1 hs
    have hab : a ≤ b := hle b (List.mem_cons_self ..)
    by_cases heq : a = b
    · subst heq
      rw [List.eraseRepsBy.loop, beq_self_eq_true]
      obtain ⟨h1, h2⟩ := ih acc a hs' hacc hlt
      refine ⟨h1, fun x => ?_⟩
      rw [h2 x]
      simp
    · rw [List.eraseRepsBy.loop, show (a == b) = false by simpa using heq]
      have hacc' : (a :: acc).Pairwise (· > ·) := List.pairwise_cons.2 ⟨hlt, hacc⟩
      have hlt' : ∀ y ∈ a :: acc, y < b := by
        intro y hy
        rcases List.mem_cons.1 hy with rfl | hy
        · omega
        · have := hlt y hy
          omega
      obtain ⟨h1, h2⟩ := ih (a :: acc) b hs' hacc' hlt'
      refine ⟨h1, fun x => ?_⟩
      rw [h2 x]
      simp only [List.mem_cons]
      grind

theorem eraseReps_spec {l : List Nat} (hs : l.Pairwise (· ≤ ·)) :
    l.eraseReps.Pairwise (· < ·) ∧ ∀ x, x ∈ l.eraseReps ↔ x ∈ l := by
  cases l with
  | nil => exact ⟨List.Pairwise.nil, fun x => Iff.rfl⟩
  | cons a as =>
    obtain ⟨h1, h2⟩ := eraseReps_loop_spec as [] a hs List.Pairwise.nil (by simp)
    exact ⟨h1, fun x => (h2 x).trans (by simp)⟩

namespace Lexer

theorem sortedGaps_spec (l : Lexer) :
    l.sortedGaps.toList.Pairwise (· < ·) ∧ ∀ x, x ∈ l.sortedGaps ↔ x ∈ l.gaps := by
  have hs : (l.gaps.toList.mergeSort).Pairwise (· ≤ ·) := by
    have htrans : ∀ a b c : Nat, decide (a ≤ b) = true → decide (b ≤ c) = true →
        decide (a ≤ c) = true := by
      simpa using fun a b c => Nat.le_trans
    have htotal : ∀ a b : Nat, (decide (a ≤ b) || decide (b ≤ a)) = true := by
      simpa using Nat.le_total
    simpa using List.pairwise_mergeSort htrans htotal l.gaps.toList
  obtain ⟨h1, h2⟩ := eraseReps_spec hs
  refine ⟨h1, fun x => ?_⟩
  rw [sortedGaps, List.mem_toArray, h2, List.mem_mergeSort, Array.mem_toList_iff]

end Lexer

/-! ## The search -/

namespace OffsetMap

variable {gaps : Array Nat} {b : Nat}

theorem gapsBefore_eq (gaps : Array Nat) (x : Nat) :
    gapsBefore gaps x = gaps.toList.countP (· < x) := by
  have h : ∀ (l : List Nat) (n : Nat),
      l.foldl (fun n g => if g < x then n + 1 else n) n = n + l.countP (· < x) := by
    intro l
    induction l with
    | nil => intro n; rfl
    | cons a l ih =>
      intro n
      rw [List.foldl_cons, ih]
      by_cases ha : a < x
      · rw [if_pos ha, List.countP_cons_of_pos (by simpa using ha)]
        omega
      · rw [if_neg ha, List.countP_cons_of_neg (by simpa using ha)]
  rw [gapsBefore, ← Array.foldl_toList, h, Nat.zero_add]

/-- The gaps that a map looks at: those from its base on. -/
def laterGaps (gaps : Array Nat) (b : Nat) : List Nat := gaps.toList.filter (b ≤ ·)

theorem laterGaps_pairwise (hg : gaps.toList.Pairwise (· < ·)) :
    (laterGaps gaps b).Pairwise (· < ·) := hg.filter _

theorem size_sub_firstGap (hg : gaps.toList.Pairwise (· < ·)) :
    gaps.size - (atOffset gaps b).firstGap = (laterGaps gaps b).length := by
  rw [laterGaps, ← drop_countP_lt hg, List.length_drop, Array.length_toList, atOffset,
    gapsBefore_eq]

theorem skips_iff (hg : gaps.toList.Pairwise (· < ·)) {target j : Nat}
    (hj : j < (laterGaps gaps b).length) :
    (atOffset gaps b).skips target j = true ↔ (laterGaps gaps b)[j] ≤ target + j := by
  have hget : (atOffset gaps b).gaps[(atOffset gaps b).firstGap + j]? =
      some (laterGaps gaps b)[j] := by
    simp only [atOffset]
    rw [← Array.getElem?_toList, ← List.getElem?_drop, gapsBefore_eq, drop_countP_lt hg]
    exact List.getElem?_eq_getElem hj
  simp only [skips, hget, Option.getD_some, decide_eq_true_eq]
  omega

theorem skips_of_le (hg : gaps.toList.Pairwise (· < ·)) {target i j : Nat} (hij : i ≤ j)
    (hj : j < (laterGaps gaps b).length)
    (h : (atOffset gaps b).skips target j = true) :
    (atOffset gaps b).skips target i = true := by
  have hle := getElem_add_le (laterGaps_pairwise (b := b) hg) hij hj
  rw [skips_iff hg hj] at h
  rw [skips_iff hg (by omega)]
  omega

/-- The search parts the gaps that are skipped from those that are not. -/
theorem search_spec (m : OffsetMap) {target size lo hi : Nat}
    (hm : ∀ i j, i ≤ j → j < size → m.skips target j = true → m.skips target i = true)
    (hhi : hi ≤ size) (hle : lo ≤ hi) :
    lo ≤ m.search target lo hi ∧ m.search target lo hi ≤ hi ∧
      (∀ j, lo ≤ j → j < m.search target lo hi → m.skips target j = true) ∧
      (m.search target lo hi < hi → m.skips target (m.search target lo hi) = false) := by
  fun_induction search m target lo hi with
  | case1 lo hi hlt mid hskip ih =>
    obtain ⟨h1, h2, h3, h4⟩ := ih (by omega) (by omega)
    refine ⟨by omega, h2, fun j hj hjs => ?_, h4⟩
    by_cases hjm : j ≤ mid
    · exact hm j mid hjm (by omega) hskip
    · exact h3 j (by omega) hjs
  | case2 lo hi hlt mid hskip ih =>
    obtain ⟨h1, h2, h3, h4⟩ := ih (by omega) (by omega)
    refine ⟨h1, by omega, h3, fun _ => ?_⟩
    by_cases heq : m.search target lo mid < mid
    · exact h4 heq
    · rw [show m.search target lo mid = mid by omega]
      simpa using hskip
  | case3 lo hi hge =>
    exact ⟨Nat.le_refl _, hle, fun j h1 h2 => by omega, fun h => by omega⟩

/-- A shift is no matter to the search. -/
theorem search_shift (m : OffsetMap) (d : Int) (target lo hi : Nat) :
    (m.shift d).search target lo hi = m.search target lo hi := by
  fun_induction m.search target lo hi with
  | case1 lo hi hlt mid hskips ih =>
    rw [search, if_pos hlt, if_pos (show (m.shift d).skips target mid = true from hskips)]
    exact ih
  | case2 lo hi hlt mid hskips ih =>
    rw [search, if_pos hlt, if_neg (show ¬ (m.shift d).skips target mid = true from hskips)]
    exact ih
  | case3 lo hi hle => rw [search, if_neg hle]

theorem skipped_spec (hg : gaps.toList.Pairwise (· < ·)) (target : Nat) :
    (atOffset gaps b).skipped target ≤ (laterGaps gaps b).length ∧
      (∀ j, j < (atOffset gaps b).skipped target →
        (atOffset gaps b).skips target j = true) ∧
      ((atOffset gaps b).skipped target < (laterGaps gaps b).length →
        (atOffset gaps b).skips target ((atOffset gaps b).skipped target) = false) := by
  have hm : ∀ i j, i ≤ j → j < (laterGaps gaps b).length →
      (atOffset gaps b).skips target j = true → (atOffset gaps b).skips target i = true :=
    fun i j hij hj => skips_of_le hg hij hj
  have h := search_spec (atOffset gaps b) hm (Nat.le_refl _) (Nat.zero_le _)
  rw [skipped, show (atOffset gaps b).gaps.size - (atOffset gaps b).firstGap =
    (laterGaps gaps b).length from size_sub_firstGap hg]
  exact ⟨h.2.1, fun j hj => h.2.2.1 j (Nat.zero_le j) hj, h.2.2.2⟩

/-- A later index skips no fewer gaps. -/
theorem skipped_mono (hg : gaps.toList.Pairwise (· < ·)) {t t' : Nat} (h : t ≤ t') :
    (atOffset gaps b).skipped t ≤ (atOffset gaps b).skipped t' := by
  obtain ⟨hle, hskip, -⟩ := skipped_spec (b := b) hg t
  obtain ⟨-, -, hstop⟩ := skipped_spec (b := b) hg t'
  apply Nat.le_of_not_lt
  intro hlt
  have h1 := hskip _ hlt
  have h2 := hstop (by omega)
  have hj : (atOffset gaps b).skipped t' < (laterGaps gaps b).length := by omega
  rw [skips_iff hg hj] at h1
  rw [← Bool.not_eq_true, skips_iff hg hj] at h2
  omega

/-- An index skips the gaps up to `stop` when `stop` is no gap and lies behind the index by their
number. -/
theorem skipped_eq (hg : gaps.toList.Pairwise (· < ·)) {target stop : Nat}
    (hstop : stop ∉ gaps)
    (hcount : target + (laterGaps gaps b).countP (· < stop) = stop) :
    (atOffset gaps b).skipped target = (laterGaps gaps b).countP (· < stop) := by
  have hl := laterGaps_pairwise (b := b) hg
  have hn := List.countP_le_length (p := fun g => decide (g < stop)) (l := laterGaps gaps b)
  obtain ⟨hle, hskip, hnot⟩ := skipped_spec (b := b) hg target
  have hlt : ∀ j, (hj : j < (laterGaps gaps b).length) →
      ((atOffset gaps b).skips target j = true ↔
        j < (laterGaps gaps b).countP (· < stop)) := by
    intro j hj
    rw [skips_iff hg hj]
    constructor
    · intro h
      apply Nat.lt_of_not_le
      intro hge
      have hn' : (laterGaps gaps b).countP (· < stop) < (laterGaps gaps b).length := by
        omega
      have h1 := getElem_add_le hl hge hj
      have h2 : ¬ (laterGaps gaps b)[(laterGaps gaps b).countP (· < stop)] < stop := by
        rw [getElem_lt_iff hl hn']
        omega
      have h3 : (laterGaps gaps b)[(laterGaps gaps b).countP (· < stop)] ≠ stop := by
        intro heq
        have hmem := List.getElem_mem hn'
        rw [heq, laterGaps, List.mem_filter] at hmem
        exact hstop (Array.mem_def.2 hmem.1)
      omega
    · intro h
      have hlast : (laterGaps gaps b).countP (· < stop) - 1 < (laterGaps gaps b).length := by
        omega
      have h1 := getElem_add_le hl (show j ≤ _ - 1 by omega) hlast
      have h2 := (getElem_lt_iff hl hlast (x := stop)).2 (by omega)
      omega
  apply Nat.le_antisymm
  · apply Nat.le_of_not_lt
    intro h
    have := (hlt _ (by omega)).1 (hskip _ h)
    omega
  · apply Nat.le_of_not_lt
    intro h
    have := hnot (by omega)
    rw [← Bool.not_eq_true, hlt _ (by omega)] at this
    omega

/-! ## Decoded ranges -/

theorem steps_atOffset {index : Nat} (h : index < Offset.limit) :
    (atOffset gaps b).steps index = index := by
  have : ((index : Int) + 0).toNat = index := by omega
  rw [steps, show (atOffset gaps b).shiftBy = 0 from rfl, this, Nat.mod_eq_of_lt h]

/-- Later indices have later offsets. -/
theorem offset_lt (hg : gaps.toList.Pairwise (· < ·)) {i j : Nat} (hij : i < j)
    (hj : j < Offset.limit) :
    (atOffset gaps b).offset i < (atOffset gaps b).offset j := by
  simp only [offset]
  rw [steps_atOffset hj, steps_atOffset (Nat.lt_trans hij hj)]
  have hle : (atOffset gaps b).base + i ≤ (atOffset gaps b).base + j :=
    Nat.add_le_add_left (Nat.le_of_lt hij) _
  have hskipped := skipped_mono (b := b) hg hle
  omega

theorem offset_mono (hg : gaps.toList.Pairwise (· < ·)) {i j : Nat} (hij : i ≤ j)
    (hj : j < Offset.limit) :
    (atOffset gaps b).offset i ≤ (atOffset gaps b).offset j := by
  rcases Nat.lt_or_eq_of_le hij with hlt | rfl
  · exact Nat.le_of_lt (offset_lt hg hlt hj)
  · exact Nat.le_refl _

end OffsetMap

namespace Piece

open Text (byteLength)

theorem gapsFrom_pairwise {ps : List Piece} (hv : ∀ p ∈ ps, p.Valid) (start : Nat) :
    (gapsFrom start ps).Pairwise (· < ·) := by
  induction ps generalizing start with
  | nil => exact List.Pairwise.nil
  | cons p ps ih =>
    have hv' : ∀ q ∈ ps, q.Valid := fun q hq => hv q (List.mem_cons_of_mem p hq)
    have hle := (hv p (List.mem_cons_self ..)).value_le
    rw [gapsFrom, List.pairwise_append]
    refine ⟨List.pairwise_lt_range', ih hv' _, fun x hx y hy => ?_⟩
    rw [List.mem_range'_1] at hx
    have := bounds_of_mem_gapsFrom hv' hy
    omega

theorem length_gapsFrom {ps : List Piece} (hv : ∀ p ∈ ps, p.Valid) (start : Nat) :
    byteLength (values ps) + (gapsFrom start ps).length = byteLength (raws ps) := by
  induction ps generalizing start with
  | nil => rfl
  | cons p ps ih =>
    have := ih (fun q hq => hv q (List.mem_cons_of_mem p hq)) (start + byteLength p.raw)
    have hle := (hv p (List.mem_cons_self ..)).value_le
    simp only [values_cons, raws_cons, gapsFrom, Text.byteLength_append, List.length_append,
      List.length_range']
    omega

end Piece

namespace Decodes

open Text (byteLength)

variable {cs : List Char} {gaps : Array Nat} {o lo hi : Nat} {ps qs : List Piece}

/-- The gaps of the map in front of a border between two pieces are those of the pieces. -/
theorem countP_laterGaps (hg : gaps.toList.Pairwise (· < ·))
    (h : Decodes cs (fun x => o + x ∈ gaps) lo (ps ++ qs) hi) :
    (OffsetMap.laterGaps gaps (o + lo)).countP (· < o + lo + byteLength (Piece.raws ps)) =
      (Piece.gapsFrom lo ps).length := by
  have hvp : ∀ p ∈ ps, p.Valid := fun p hp => h.valid p (List.mem_append_left _ hp)
  have hvq : ∀ q ∈ qs, q.Valid := fun q hq => h.valid q (List.mem_append_right _ hq)
  have hhi := h.between.1
  rw [Piece.raws_append, Text.byteLength_append] at hhi
  have hnd : ((Piece.gapsFrom lo ps).map (o + ·)).Nodup := by
    have hp := (Piece.gapsFrom_pairwise hvp lo).map (o + ·)
      (fun a b (hab : a < b) => Nat.add_lt_add_left hab o)
    exact hp.imp Nat.ne_of_lt
  have hnd' : ((OffsetMap.laterGaps gaps (o + lo)).filter
      (· < o + lo + byteLength (Piece.raws ps))).Nodup :=
    ((OffsetMap.laterGaps_pairwise hg).filter _).imp Nat.ne_of_lt
  have hperm : ((OffsetMap.laterGaps gaps (o + lo)).filter
      (· < o + lo + byteLength (Piece.raws ps))).Perm ((Piece.gapsFrom lo ps).map (o + ·)) := by
    rw [List.perm_ext_iff_of_nodup hnd' hnd]
    intro y
    simp only [OffsetMap.laterGaps, List.mem_filter, List.mem_map, decide_eq_true_eq,
      Array.mem_toList_iff]
    constructor
    · rintro ⟨⟨hy, hlo⟩, hlt⟩
      obtain ⟨x, rfl⟩ : ∃ x, y = o + x := ⟨y - o, by omega⟩
      have hx := (h.gaps x (by omega) (by omega)).1 hy
      rw [Piece.gapsFrom_append, List.mem_append] at hx
      refine ⟨x, hx.resolve_right fun hq => ?_, rfl⟩
      have := Piece.bounds_of_mem_gapsFrom hvq hq
      omega
    · rintro ⟨x, hx, rfl⟩
      have hb := Piece.bounds_of_mem_gapsFrom hvp hx
      refine ⟨⟨(h.gaps x (by omega) (by omega)).2 ?_, by omega⟩, by omega⟩
      rw [Piece.gapsFrom_append]
      exact List.mem_append_left _ hx
  rw [List.countP_eq_length_filter, hperm.length_eq, List.length_map]

/-- The map answers where the raw text of the pieces ends that an index is behind. -/
theorem offset_eq (hg : gaps.toList.Pairwise (· < ·))
    (h : Decodes cs (fun x => o + x ∈ gaps) lo (ps ++ qs) hi) (hfit : hi < Offset.limit) :
    (OffsetMap.atOffset gaps (o + lo)).offset (byteLength (Piece.values ps)) =
      o + lo + byteLength (Piece.raws ps) := by
  have hvp : ∀ p ∈ ps, p.Valid := fun p hp => h.valid p (List.mem_append_left _ hp)
  have hvq : ∀ q ∈ qs, q.Valid := fun q hq => h.valid q (List.mem_append_right _ hq)
  have hhi := h.between.1
  rw [Piece.raws_append, Text.byteLength_append] at hhi
  have hlen := Piece.length_gapsFrom hvp lo
  have hcount := countP_laterGaps hg h
  have hstop : o + lo + byteLength (Piece.raws ps) ∉ gaps := by
    intro hmem
    have hx := (h.gaps (lo + byteLength (Piece.raws ps)) (by omega) (by omega)).1
      (by simpa [Nat.add_assoc] using hmem)
    rw [Piece.gapsFrom_append, List.mem_append] at hx
    rcases hx with hx | hx
    · have := Piece.bounds_of_mem_gapsFrom hvp hx
      omega
    · have := Piece.bounds_of_mem_gapsFrom hvq hx
      omega
  have hskip : (OffsetMap.atOffset gaps (o + lo)).skipped
      (o + lo + byteLength (Piece.values ps)) = _ :=
    OffsetMap.skipped_eq hg hstop (by omega)
  rw [OffsetMap.offset, OffsetMap.steps_atOffset (by omega)]
  simp only [show (OffsetMap.atOffset gaps (o + lo)).base = o + lo from rfl]
  omega

end Decodes
end TemplateSyntax
