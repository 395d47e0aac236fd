import TemplateSyntax.Proofs.FragmentMove
import TemplateSyntax.Proofs.GapsMove

/-! # The walk over the gaps

An offset map finds the gaps in front of an index by a binary search.  The answer is the one that a
walk gives which starts at the base, goes forward by the index and steps over each gap on its way, and
so the index counts the offsets in front of the answer that are no gaps.  That count is what maps
compose by: to start a map at the offset of an index, or to add the index to each further one, is the
same. -/

namespace TemplateSyntax

namespace OffsetMap

variable {gaps : Array Nat} {b c n o : Nat}

/-! ## Walking -/

/-- Steps over each gap at or before the position, in order. -/
def walk : List Nat → Nat → Nat
  | [], position => position
  | g :: gs, position => if g ≤ position then walk gs (position + 1) else walk gs position

theorem le_walk (gs : List Nat) (position : Nat) : position ≤ walk gs position := by
  induction gs generalizing position with
  | nil => exact Nat.le_refl _
  | cons g gs ih =>
    rw [walk]
    split
    · exact Nat.le_trans (Nat.le_succ _) (ih _)
    · exact ih _

theorem walk_of_lt {gs : List Nat} {position : Nat} (h : ∀ g ∈ gs, position < g) :
    walk gs position = position := by
  induction gs with
  | nil => rfl
  | cons g gs ih =>
    have hg := h g (List.mem_cons_self ..)
    rw [walk, if_neg (Nat.not_le_of_lt hg)]
    exact ih fun x hx => h x (List.mem_cons_of_mem _ hx)

/-- A walk ends where no gap is, as far from its start as there are gaps in front of its end. -/
theorem walk_spec {gs : List Nat} (hgs : gs.Pairwise (· < ·)) (position : Nat) :
    walk gs position ∉ gs ∧ position + gs.countP (· < walk gs position) = walk gs position := by
  induction gs generalizing position with
  | nil => exact ⟨List.not_mem_nil, rfl⟩
  | cons g gs ih =>
    obtain ⟨hlater, hgs⟩ := List.pairwise_cons.1 hgs
    rw [walk]
    split
    · next hle =>
      obtain ⟨hmem, hcount⟩ := ih hgs (position + 1)
      have hwalk := le_walk gs (position + 1)
      refine ⟨?_, ?_⟩
      · rw [List.mem_cons, not_or]
        exact ⟨by omega, hmem⟩
      · rw [List.countP_cons_of_pos (by simp only [decide_eq_true_eq]; omega)]
        omega
    · next hgt =>
      have hfront : ∀ x ∈ gs, position < x := fun x hx => by
        have := hlater x hx
        omega
      rw [walk_of_lt hfront]
      refine ⟨?_, ?_⟩
      · rw [List.mem_cons, not_or]
        exact ⟨by omega, fun hmem => Nat.lt_irrefl _ (hfront _ hmem)⟩
      · rw [Nat.add_eq_left, List.countP_eq_zero]
        intro x hx
        rw [decide_eq_true_eq]
        rcases List.mem_cons.1 hx with rfl | hx
        · omega
        · exact Nat.not_lt_of_le (Nat.le_of_lt (hfront x hx))

/-! ## Counting -/

/-- The number of offsets from `lo` up to `hi` that are no gaps. -/
def kept (gaps : Array Nat) (lo hi : Nat) : Nat := (List.range' lo (hi - lo)).countP (· ∉ gaps)

theorem kept_add (hbc : b ≤ c) (hco : c ≤ o) : kept gaps b c + kept gaps c o = kept gaps b o := by
  have hrange : List.range' b (o - b) = List.range' b (c - b) ++ List.range' c (o - c) := by
    rw [show o - b = (c - b) + (o - c) by omega, ← List.range'_append_1,
      show b + (c - b) = c by omega]
  rw [kept, kept, kept, hrange, List.countP_append]

/-- An offset that is no gap counts for what follows it. -/
theorem kept_lt (hbc : b ≤ c) (hc : c ∉ gaps) (hco : c < o) : kept gaps b c < kept gaps b o := by
  have hone : kept gaps c (c + 1) = 1 := by
    simp [kept, show c + 1 - c = 1 by omega, hc]
  have hfront : kept gaps b c + _ = _ := kept_add hbc (Nat.le_add_right c 1)
  have hback : kept gaps b (c + 1) + _ = _ := kept_add (Nat.le_trans hbc (Nat.le_add_right c 1)) hco
  omega

/-- What is left of a range are its gaps. -/
theorem kept_add_countP (hg : gaps.toList.Pairwise (· < ·)) (hle : b ≤ o) :
    b + kept gaps b o + (laterGaps gaps b).countP (· < o) = o := by
  have hsplit : (List.range' b (o - b)).length = _ :=
    List.length_eq_countP_add_countP (· ∉ gaps)
  rw [List.length_range'] at hsplit
  have hnd : ((List.range' b (o - b)).filter (· ∈ gaps)).Nodup :=
    List.Nodup.filter _ List.nodup_range'
  have hnd' : ((laterGaps gaps b).filter (· < o)).Nodup :=
    ((laterGaps_pairwise hg).filter _).imp Nat.ne_of_lt
  have hperm : ((List.range' b (o - b)).filter (· ∈ gaps)).Perm
      ((laterGaps gaps b).filter (· < o)) := by
    rw [List.perm_ext_iff_of_nodup hnd hnd']
    intro x
    simp only [laterGaps, List.mem_filter, List.mem_range'_1, decide_eq_true_eq,
      Array.mem_toList_iff]
    constructor
    · rintro ⟨⟨hb, ho⟩, hmem⟩
      exact ⟨⟨hmem, hb⟩, by omega⟩
    · rintro ⟨⟨hmem, hb⟩, ho⟩
      exact ⟨⟨hb, by omega⟩, hmem⟩
  have hgaps : (List.range' b (o - b)).countP (fun x => ¬ decide (x ∉ gaps) = true) =
      (laterGaps gaps b).countP (· < o) := by
    rw [List.countP_eq_length_filter, List.countP_eq_length_filter, ← hperm.length_eq]
    congr 1
    simp
  rw [hgaps, ← kept] at hsplit
  omega

/-- An offset behind `n` others that are no gaps is the only such. -/
theorem eq_of_kept_eq (hbc : b ≤ c) (hbo : b ≤ o) (hc : c ∉ gaps) (ho : o ∉ gaps)
    (h : kept gaps b c = kept gaps b o) : c = o := by
  rcases Nat.lt_trichotomy c o with hlt | heq | hlt
  · have := kept_lt hbc hc hlt
    omega
  · exact heq
  · have := kept_lt hbo ho hlt
    omega

/-- The offset where a walk ends is no gap, and as many others that are none are in front of it as the
walk went forward. -/
theorem walk_eq_iff (hg : gaps.toList.Pairwise (· < ·)) :
    walk (laterGaps gaps b) (b + n) = o ↔ b ≤ o ∧ o ∉ gaps ∧ kept gaps b o = n := by
  obtain ⟨hmem, hcount⟩ := walk_spec (laterGaps_pairwise (b := b) hg) (b + n)
  have hbase := Nat.le_trans (Nat.le_add_right b n) (le_walk (laterGaps gaps b) (b + n))
  have hnogap : walk (laterGaps gaps b) (b + n) ∉ gaps := fun hgap =>
    hmem (List.mem_filter.2 ⟨Array.mem_toList_iff.2 hgap, decide_eq_true hbase⟩)
  have hkept := kept_add_countP hg hbase
  constructor
  · rintro rfl
    exact ⟨hbase, hnogap, by omega⟩
  · rintro ⟨hle, ho, rfl⟩
    exact eq_of_kept_eq hbase hle hnogap ho (by omega)

/-! ## The offset of an index -/

/-- The search finds where the walk ends. -/
theorem offset_eq_walk (hg : gaps.toList.Pairwise (· < ·)) {d : Int} {i : Nat}
    (hfit : i + d < Offset.limit) :
    ((atOffset gaps b).shift d).offset i = walk (laterGaps gaps b) (b + (i + d).toNat) := by
  have hlimit : 0 < Offset.limit := by decide
  have hsteps : ((atOffset gaps b).shift d).steps i = (i + d).toNat := by
    have hby : ((atOffset gaps b).shift d).shiftBy = d := Int.zero_add d
    rw [steps, hby]
    exact Nat.mod_eq_of_lt (by omega)
  obtain ⟨hmem, hcount⟩ := walk_spec (laterGaps_pairwise (b := b) hg) (b + (i + d).toNat)
  have hnogap := ((walk_eq_iff hg).1 (rfl : walk (laterGaps gaps b) (b + (i + d).toNat) = _)).2.1
  have hskipped := skipped_eq hg hnogap hcount
  have hshift : ((atOffset gaps b).shift d).skipped (b + (i + d).toNat) =
      (atOffset gaps b).skipped (b + (i + d).toNat) := search_shift ..
  rw [offset, hsteps]
  show b + (i + d).toNat + ((atOffset gaps b).shift d).skipped (b + (i + d).toNat) = _
  rw [hshift, hskipped, hcount]

theorem fits64_index {d : Int} {i : Nat} (hd : fits64 d = true) (hfit : i + d < Offset.limit) :
    fits64 (i + d) = true := by
  have hlimit : Offset.limit = 0x100000000 := rfl
  unfold fits64 at hd ⊢
  rw [Bool.and_eq_true, decide_eq_true_eq, decide_eq_true_eq] at hd ⊢
  omega

theorem offset?_shift_eq (hg : gaps.toList.Pairwise (· < ·)) {d : Int} (hd : fits64 d = true)
    {i : Nat} (hfit : i + d < Offset.limit) : ((atOffset gaps b).shift d).offset? i =
      Offset.check (walk (laterGaps gaps b) (b + (i + d).toNat)) := by
  have hby : ((atOffset gaps b).shift d).shiftBy = d := Int.zero_add d
  rw [offset?, hby, if_pos (fits64_index hd hfit), offset_eq_walk hg hfit]

theorem offset?_shift_eq_some_iff (hg : gaps.toList.Pairwise (· < ·)) {d : Int}
    (hd : fits64 d = true) {i : Nat} (hfit : i + d < Offset.limit) :
    ((atOffset gaps b).shift d).offset? i = some o ↔
      o < Offset.limit ∧ b ≤ o ∧ o ∉ gaps ∧ kept gaps b o = (i + d).toNat := by
  rw [offset?_shift_eq hg hd hfit, Offset.check_eq_some_iff]
  constructor
  · rintro ⟨hwalk, hlt⟩
    exact ⟨hwalk ▸ hlt, (walk_eq_iff hg).1 hwalk⟩
  · rintro ⟨hlt, hspec⟩
    have hwalk := (walk_eq_iff hg).2 hspec
    exact ⟨hwalk, hwalk.symm ▸ hlt⟩

/-- Later indices have later offsets, from where index and shift are not negative. -/
theorem offset?_shift_lt (hg : gaps.toList.Pairwise (· < ·)) {d : Int} (hd : fits64 d = true)
    {i j o o' : Nat} (hpos : 0 ≤ i + d) (hij : i < j) (hfit : j + d < Offset.limit)
    (hi : ((atOffset gaps b).shift d).offset? i = some o)
    (hj : ((atOffset gaps b).shift d).offset? j = some o') : o < o' := by
  obtain ⟨-, hle, ho, hkept⟩ := (offset?_shift_eq_some_iff hg hd (by omega)).1 hi
  obtain ⟨-, hle', ho', hkept'⟩ := (offset?_shift_eq_some_iff hg hd hfit).1 hj
  -- an offset not behind the other would not have fewer offsets in front of it
  apply Nat.lt_of_not_le
  intro hback
  rcases Nat.eq_or_lt_of_le hback with rfl | hlt
  · omega
  · have := kept_lt hle' ho' hlt
    omega

/-- The maps that start at `b` are walks over the gaps. -/
structure IsWalk (gaps : Array Nat) (b : Nat) : Prop where
  /-- An index is mapped to where the walk ends that goes as far forward as index and shift together. -/
  ends : ∀ d : Int, fits64 d = true → ∀ i : Nat, i + d < Offset.limit →
    ((atOffset gaps b).shift d).offset? i =
      Offset.check (walk (laterGaps gaps b) (b + (i + d).toNat))
  /-- That is the one offset which is no gap and has as many others that are none in front of it. -/
  counts : ∀ d : Int, fits64 d = true → ∀ i : Nat, i + d < Offset.limit → ∀ o,
    ((atOffset gaps b).shift d).offset? i = some o ↔
      o < Offset.limit ∧ b ≤ o ∧ o ∉ gaps ∧ kept gaps b o = (i + d).toNat
  /-- Where index and shift together are not negative, later indices have later offsets. -/
  increasing : ∀ d : Int, fits64 d = true → ∀ i j o o' : Nat, 0 ≤ i + d → i < j →
    j + d < Offset.limit → ((atOffset gaps b).shift d).offset? i = some o →
    ((atOffset gaps b).shift d).offset? j = some o' → o < o'
  /-- Index and shift together are mapped to all offsets from the base on that are no gaps. -/
  image : ∀ o < Offset.limit, b ≤ o ∧ o ∉ gaps ↔ ∃ n : Nat, n < Offset.limit ∧
    ∀ d : Int, fits64 d = true → ∀ i : Nat, i + d = n →
      ((atOffset gaps b).shift d).offset? i = some o
  /-- With one shift these are reached up from as many of them as the shift goes forward. -/
  reach : ∀ d : Int, fits64 d = true → ∀ o,
    (∃ i : Nat, 0 ≤ i + d ∧ i + d < Offset.limit ∧
      ((atOffset gaps b).shift d).offset? i = some o) ↔
        o < Offset.limit ∧ b ≤ o ∧ o ∉ gaps ∧ d ≤ kept gaps b o

/-- The search over the gaps is the walk over them. -/
theorem offset?_walks (hg : gaps.toList.Pairwise (· < ·)) (b : Nat) : IsWalk gaps b := by
  have hkept : ∀ {o : Nat}, b ≤ o → o < Offset.limit → kept gaps b o < Offset.limit := by
    intro o hle hlt
    have := kept_add_countP hg hle
    omega
  refine ⟨fun d hd i hfit => offset?_shift_eq hg hd hfit,
    fun d hd i hfit o => offset?_shift_eq_some_iff hg hd hfit,
    fun d hd i j o o' hpos hij hfit hi hj => offset?_shift_lt hg hd hpos hij hfit hi hj,
    fun o hlt => ⟨?_, ?_⟩, fun d hd o => ⟨?_, ?_⟩⟩
  · rintro ⟨hle, ho⟩
    have hn := hkept hle hlt
    refine ⟨kept gaps b o, hn, fun d hd i hi => ?_⟩
    exact (offset?_shift_eq_some_iff hg hd (by omega)).2 ⟨hlt, hle, ho, by omega⟩
  · rintro ⟨n, hn, hall⟩
    have hzero := hall 0 (by decide) n (by omega)
    obtain ⟨-, hle, ho, -⟩ := (offset?_shift_eq_some_iff hg (by decide) (by omega)).1 hzero
    exact ⟨hle, ho⟩
  · rintro ⟨i, hpos, hfit, hi⟩
    obtain ⟨hlt, hle, ho, hcount⟩ := (offset?_shift_eq_some_iff hg hd hfit).1 hi
    exact ⟨hlt, hle, ho, by omega⟩
  · rintro ⟨hlt, hle, ho, hforward⟩
    have hn := hkept hle hlt
    obtain ⟨i, hi⟩ := Int.eq_ofNat_of_zero_le (show 0 ≤ (kept gaps b o : Int) - d by omega)
    refine ⟨i, by omega, by omega, ?_⟩
    exact (offset?_shift_eq_some_iff hg hd (by omega)).2 ⟨hlt, hle, ho, by omega⟩

/-- Adjacent gaps, and one on its own. -/
def gapRun : Array Nat := #[2, 3, 4, 9]

/-- A base that is a gap, in front of more gaps. -/
theorem offset?_walks_gapRun : gapRun.toList.Pairwise (· < ·) ∧ IsWalk gapRun 3 :=
  have hg : gapRun.toList.Pairwise (· < ·) := by decide
  ⟨hg, offset?_walks hg 3⟩

/-! ## Maps made from maps -/

/-- The maps that are made from that of a template by moving the start and adding to the indices. -/
inductive Built (gaps : Array Nat) : OffsetMap → Prop
  | ofGaps (origin : Origin) : Built gaps (.ofGaps origin gaps)
  | after {m : OffsetMap} (h : Built gaps m) (offset : Nat) : Built gaps (m.after offset)
  | shift {m : OffsetMap} (h : Built gaps m) (d : Int) : Built gaps (m.shift d)

/-- Of the way a map was made, the last start and the sum of what was added since then are left. -/
theorem Built.eq {m : OffsetMap} (h : Built gaps m) : ∃ b, m = (atOffset gaps b).shift m.shiftBy := by
  induction h with
  | ofGaps origin => exact ⟨origin.offset, rfl⟩
  | @after m h offset ih =>
    obtain ⟨b, hm⟩ := ih
    have hgaps : m.gaps = gaps := congrArg OffsetMap.gaps hm
    exact ⟨offset, by rw [OffsetMap.after, hgaps]; rfl⟩
  | @shift m h d ih =>
    obtain ⟨b, hm⟩ := ih
    refine ⟨b, ?_⟩
    conv_lhs => rw [hm, shift_shift]
    rfl

/-- An index that was added before is added again. -/
theorem offset?_shift (m : OffsetMap) {d : Int} {i j : Nat} (h : (i : Int) + d = j) :
    (m.shift d).offset? i = m.offset? j := by
  have hsum : (i : Int) + (m.shift d).shiftBy = j + m.shiftBy := by
    show (i : Int) + (m.shiftBy + d) = j + m.shiftBy
    omega
  rw [offset?, offset?, hsum, offset_shift m h]

/-- Of two indices the first may be passed by starting at its offset. -/
theorem offset?_after (hg : gaps.toList.Pairwise (· < ·)) {d : Int} (hd : fits64 d = true)
    (hpos : 0 ≤ d) {k i o : Nat} (hfit : ((k + i : Nat) : Int) + d < Offset.limit)
    (h : ((atOffset gaps b).shift d).offset? (k + i) = some o) :
    ∃ c, ((atOffset gaps b).shift d).offset? k = some c ∧ (atOffset gaps c).offset? i = some o := by
  obtain ⟨hlt, hle, ho, hkept⟩ := (offset?_shift_eq_some_iff hg hd hfit).1 h
  obtain ⟨c, hwalk⟩ : ∃ c, walk (laterGaps gaps b) (b + (k + d).toNat) = c := ⟨_, rfl⟩
  obtain ⟨hbc, hc, hcount⟩ := (walk_eq_iff hg).1 hwalk
  have hco : c ≤ o := by
    apply Nat.le_of_not_lt
    intro hback
    have := kept_lt hle ho hback
    omega
  have hsum : kept gaps b c + _ = _ := kept_add hbc hco
  refine ⟨c, (offset?_shift_eq_some_iff hg hd (by omega)).2 ⟨by omega, hbc, hc, hcount⟩, ?_⟩
  exact (offset?_shift_eq_some_iff (d := 0) hg (by decide) (by omega)).2
    ⟨hlt, hco, ho, by omega⟩

/-- Maps compose.  To start a map at the offset of an index `k` and to add `k` to all indices is the
same as to ask for the indices from `k` on; what is added adds up; and what is put in front of a text
is taken off again by subtracting its length. -/
theorem Built.composes {m : OffsetMap} (hm : Built gaps m) (hg : gaps.toList.Pairwise (· < ·))
    (hfits : fits64 m.shiftBy = true) :
    (0 ≤ m.shiftBy → ∀ k i o : Nat, ((k + i : Nat) : Int) + m.shiftBy < Offset.limit →
      m.offset? (k + i) = some o →
      ∃ c, m.offset? k = some c ∧ (m.after c).offset? i = some o) ∧
    (∀ k i : Nat, (m.shift k).offset? i = m.offset? (k + i)) ∧
    (∀ d d' : Int, (m.shift d).shift d' = m.shift (d + d')) ∧
    ∀ (k : Int) (p i : Nat), ((m.shift k).shift (-p)).offset? (p + i) = (m.shift k).offset? i := by
  refine ⟨fun hpos k i o hfit h => ?_, fun k i => ?_, fun d d' => shift_shift m d d', fun k p i => ?_⟩
  · obtain ⟨b, hb⟩ := hm.eq
    rw [hb] at h ⊢
    exact offset?_after hg hfits hpos hfit h
  · exact offset?_shift m (by omega)
  · exact offset?_shift (m.shift k) (by omega)

/-- The theorem at a map that starts behind a run of gaps and goes one index further. -/
theorem Built.composes_behind_gaps :
    let gaps := #[1, 2, 5, 6]
    let m := ((OffsetMap.ofGaps .fileStart gaps).after 3).shift 1
    Built gaps m ∧ gaps.toList.Pairwise (· < ·) ∧ fits64 m.shiftBy = true ∧
    (0 ≤ m.shiftBy ∧ ((1 + 1 : Nat) : Int) + m.shiftBy < Offset.limit ∧ m.offset? (1 + 1) = some 8 ∧
      ∃ c, m.offset? 1 = some c ∧ (m.after c).offset? 1 = some 8) ∧
    (∀ k i : Nat, (m.shift k).offset? i = m.offset? (k + i)) ∧
    (∀ d d' : Int, (m.shift d).shift d' = m.shift (d + d')) ∧
    ∀ (k : Int) (p i : Nat), ((m.shift k).shift (-p)).offset? (p + i) = (m.shift k).offset? i := by
  have hm : Built #[1, 2, 5, 6]
      (((OffsetMap.ofGaps .fileStart #[1, 2, 5, 6]).after 3).shift 1) := .shift (.after (.ofGaps _) _) _
  have hg : #[1, 2, 5, 6].toList.Pairwise (· < ·) := by decide
  have hoffset : (((OffsetMap.ofGaps .fileStart #[1, 2, 5, 6]).after 3).shift 1).offset? (1 + 1) =
      some 8 := by decide +kernel
  obtain ⟨hafter, hrest⟩ := Built.composes hm hg (by decide)
  refine ⟨hm, hg, by decide, ⟨by decide, by decide, hoffset, ?_⟩, hrest⟩
  exact hafter (by decide) 1 1 8 (by decide) hoffset

end OffsetMap

end TemplateSyntax
