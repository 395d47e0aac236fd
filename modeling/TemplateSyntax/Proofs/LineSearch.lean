import TemplateSyntax.Proofs.Position
import TemplateSyntax.Source.LineIndex

/-! # Searching the line starts

The line of an offset is found by a binary search among the line starts.  What it is meant to find is
told by a walk over them, from one to the next as long as they do not pass the offset.  The starts of a
text are in order, so that the search ends where the walk does, and a search that misses does so behind
the start of the line. -/

namespace TemplateSyntax

open Text (byteLength)

variable {cs : List Char} {c : Char} {o pos x : Nat}

/-! ## Where lines start -/

/-- A line ends behind a line feed, and behind a carriage return that no line feed follows. -/
def Text.EndsLine (c : Char) (post : List Char) : Prop :=
  c = '\n' ∨ c = '\r' ∧ post.head? ≠ some '\n'

instance : Decidable (Text.EndsLine c cs) := inferInstanceAs (Decidable (_ ∨ _))

open Text (EndsLine)

namespace LineIndex

/-- Character by character, a line starts behind each one that ends a line. -/
theorem startsFrom_cons (pos : Nat) (c : Char) (cs : List Char) : startsFrom pos (c :: cs) =
    (if EndsLine c cs then [pos + c.utf8Size] else []) ++ startsFrom (pos + c.utf8Size) cs := by
  by_cases hfeed : c = '\n'
  · subst hfeed
    rw [if_pos (.inl rfl)]
    rfl
  by_cases hreturn : c = '\r'
  · subst hreturn
    cases cs with
    | nil => rfl
    | cons d cs =>
      by_cases hd : d = '\n'
      · subst hd
        rw [if_neg (by simp [EndsLine]), List.nil_append]
        exact startsFrom.eq_3 ..
      · rw [if_pos (.inr ⟨rfl, by simpa using hd⟩)]
        exact startsFrom.eq_4 _ _ fun _ heq => hd (List.cons.inj heq).1
  · rw [if_neg (by simp [EndsLine, hfeed, hreturn]), List.nil_append]
    exact startsFrom.eq_5 _ _ _ hfeed hreturn

/-- The lines of a text start behind its first character. -/
theorem lt_of_mem_startsFrom (h : x ∈ startsFrom pos cs) : pos < x := by
  induction cs generalizing pos with
  | nil => simp [startsFrom] at h
  | cons c cs ih =>
    have hc := Text.utf8Size_pos c
    rw [startsFrom_cons, List.mem_append] at h
    rcases h with h | h
    · split at h
      · obtain rfl := List.mem_singleton.1 h
        omega
      · simp at h
    · have hx := ih h
      omega

theorem pairwise_startsFrom (pos : Nat) (cs : List Char) :
    (startsFrom pos cs).Pairwise (· < ·) := by
  induction cs generalizing pos with
  | nil => exact .nil
  | cons c cs ih =>
    rw [startsFrom_cons]
    split
    · exact .cons (fun x hx => lt_of_mem_startsFrom hx) (ih _)
    · exact ih _

/-! ## The walk over the line starts -/

/-- Walks the line starts as long as they do not pass `offset`; `start` is the last one taken. -/
def locate (line start offset : Nat) : List Nat → LineCol
  | [] => ⟨line, offset - start⟩
  | next :: starts =>
    if next ≤ offset then locate (line + 1) next offset starts else ⟨line, offset - start⟩

/-- Where all starts are passed, the last of them is the one of the line. -/
theorem locate_of_forall_le {starts : List Nat} (h : ∀ x ∈ starts, x ≤ o) (line start : Nat) :
    locate line start o starts = ⟨line + starts.length, o - starts.getLast?.getD start⟩ := by
  induction starts generalizing line start with
  | nil => rfl
  | cons x starts ih =>
    rw [locate, if_pos (h x (List.mem_cons_self ..)),
      ih fun y hy => h y (List.mem_cons_of_mem x hy)]
    rw [List.getLast?_cons, List.length_cons, Option.getD_some, Nat.add_assoc, Nat.add_comm 1]

/-- Lines that start behind an offset have no say in where it is. -/
theorem locate_append {starts others : List Nat} (h : ∀ x ∈ others, o < x) (line start : Nat) :
    locate line start o (starts ++ others) = locate line start o starts := by
  induction starts generalizing line start with
  | nil =>
    cases others with
    | nil => rfl
    | cons x others =>
      exact if_neg (Nat.not_le.2 (h x (List.mem_cons_self ..)))
  | cons x starts ih =>
    rw [List.cons_append, locate, locate, ih]

/-- Starts in order are those up to an offset, and then those behind it. -/
theorem exists_parted {starts : List Nat} (h : starts.Pairwise (· < ·)) (o : Nat) :
    ∃ ends others, starts = ends ++ others ∧ (∀ x ∈ ends, x ≤ o) ∧ ∀ x ∈ others, o < x := by
  induction h with
  | nil => exact ⟨[], [], rfl, by simp, by simp⟩
  | @cons x starts hx _ ih =>
    by_cases hle : x ≤ o
    · obtain ⟨ends, others, rfl, hends, hothers⟩ := ih
      refine ⟨x :: ends, others, rfl, fun y hy => ?_, hothers⟩
      rcases List.mem_cons.1 hy with rfl | hy
      · exact hle
      · exact hends y hy
    · refine ⟨[], x :: starts, rfl, by simp, fun y hy => ?_⟩
      rcases List.mem_cons.1 hy with rfl | hy
      · exact Nat.lt_of_not_le hle
      · exact Nat.lt_trans (Nat.lt_of_not_le hle) (hx y hy)

/-! ## The binary search -/

variable {ix : LineIndex} {lo hi : Nat}

/-- The line starts are in order. -/
structure Sorted (ix : LineIndex) : Prop where
  lt : ∀ {i j s t : Nat}, ix.lineStarts[i]? = some s → ix.lineStarts[j]? = some t → i < j → s < t

/-- Of what a search finds, a hit is at the offset, and a miss is behind all starts that are in front
of the offset and in front of all that are behind it. -/
def Finds (ix : LineIndex) (o : Nat) : Except Nat Nat → Prop
  | .ok i => ix.lineStarts[i]? = some o
  | .error i => i ≤ ix.lineStarts.size ∧
      ∀ j s, ix.lineStarts[j]? = some s → s ≠ o ∧ (s < o ↔ j < i)

/-- The search keeps the starts below `lo` in front of the offset and those from `hi` on behind it. -/
theorem search_finds (hsorted : ix.Sorted) (hsize : hi ≤ ix.lineStarts.size) (hle : lo ≤ hi)
    (hlo : ∀ j s, ix.lineStarts[j]? = some s → j < lo → s < o)
    (hhi : ∀ j s, ix.lineStarts[j]? = some s → hi ≤ j → o < s) : ix.Finds o (ix.search o lo hi) := by
  induction hn : hi - lo using Nat.strongRecOn generalizing lo hi with
  | ind n ih =>
    rw [search]
    split
    · next hlt =>
      obtain ⟨mid, hmid⟩ : ∃ mid, mid = lo + (hi - lo) / 2 := ⟨_, rfl⟩
      have hbound : mid < ix.lineStarts.size := by omega
      obtain ⟨s, hs⟩ : ∃ s, ix.lineStarts[mid]? = some s := ⟨_, Array.getElem?_eq_getElem hbound⟩
      dsimp only
      rw [← hmid, hs, Option.getD_some]
      split
      · next heq => rw [Finds, hs, Nat.compare_eq_eq.1 heq]
      · next hless =>
        refine ih _ (by omega) hsize (by omega) (fun j t ht hj => ?_) hhi rfl
        rcases Nat.lt_or_eq_of_le (Nat.le_of_lt_succ hj) with hj | rfl
        · exact Nat.lt_trans (hsorted.lt ht hs hj) (Nat.compare_eq_lt.1 hless)
        · exact Option.some.inj (hs.symm.trans ht) ▸ Nat.compare_eq_lt.1 hless
      · next hmore =>
        refine ih _ (by omega) (Nat.le_of_lt hbound) (by omega) hlo (fun j t ht hj => ?_) rfl
        rcases Nat.lt_or_eq_of_le hj with hj | rfl
        · exact Nat.lt_trans (Nat.compare_eq_gt.1 hmore) (hsorted.lt hs ht hj)
        · exact Option.some.inj (hs.symm.trans ht) ▸ Nat.compare_eq_gt.1 hmore
    · next hge =>
      obtain rfl : lo = hi := by omega
      refine ⟨hsize, fun j s hs => ?_⟩
      rcases Nat.lt_or_ge j lo with hj | hj
      · have hlt := hlo j s hs hj
        exact ⟨Nat.ne_of_lt hlt, iff_of_true hlt hj⟩
      · have hlt := hhi j s hs hj
        exact ⟨Nat.ne_of_gt hlt, iff_of_false (Nat.not_lt.2 (Nat.le_of_lt hlt)) (Nat.not_lt.2 hj)⟩

/-- Where a line starts at zero, the line of an offset is the last one that does not start behind it. -/
theorem lineOf_spec (hsorted : ix.Sorted) (hzero : ix.lineStarts[0]? = some 0) (o : Nat) :
    ix.lineOf o < ix.lineStarts.size ∧
      ∀ j s, ix.lineStarts[j]? = some s → (s ≤ o ↔ j ≤ ix.lineOf o) := by
  have hfinds : ix.Finds o (ix.search o 0 ix.lineStarts.size) :=
    search_finds hsorted (Nat.le_refl _) (Nat.zero_le _) (fun j s _ hj => absurd hj (Nat.not_lt_zero _))
      fun j s hs hj => absurd (Array.getElem?_eq_some_iff.1 hs).1 (Nat.not_lt.2 hj)
  unfold lineOf
  cases hsearch : ix.search o 0 ix.lineStarts.size with
  | ok i =>
    rw [hsearch] at hfinds
    have hi : ix.lineStarts[i]? = some o := hfinds
    refine ⟨(Array.getElem?_eq_some_iff.1 hi).1, fun j s hs => ?_⟩
    dsimp only
    rcases Nat.lt_trichotomy j i with hlt | rfl | hlt
    · exact iff_of_true (Nat.le_of_lt (hsorted.lt hs hi hlt)) (Nat.le_of_lt hlt)
    · exact iff_of_true (Nat.le_of_eq (Option.some.inj (hs.symm.trans hi))) (Nat.le_refl _)
    · exact iff_of_false (Nat.not_le.2 (hsorted.lt hi hs hlt)) (Nat.not_le.2 hlt)
  | error i =>
    rw [hsearch] at hfinds
    obtain ⟨hle, hparts⟩ := hfinds
    -- the first line starts at zero, so that what is missed is behind it
    have hpos : 0 < i := by
      obtain ⟨hne, hiff⟩ := hparts 0 0 hzero
      exact hiff.1 (Nat.pos_of_ne_zero (Ne.symm hne))
    dsimp only
    refine ⟨by omega, fun j s hs => ?_⟩
    obtain ⟨hne, hiff⟩ := hparts j s hs
    rw [Nat.le_iff_lt_or_eq, or_iff_left hne, hiff]
    omega

/-! ## The line index of a text -/

theorem sorted_ofChars (cs : List Char) : (ofChars cs).Sorted := by
  have hpairwise : (0 :: startsFrom 0 cs).Pairwise (· < ·) :=
    .cons (fun x hx => lt_of_mem_startsFrom hx) (pairwise_startsFrom 0 cs)
  refine ⟨fun {i j s t} hs ht hij => ?_⟩
  rw [ofChars, List.getElem?_toArray] at hs ht
  obtain ⟨hi, rfl⟩ := List.getElem?_eq_some_iff.1 hs
  obtain ⟨hj, rfl⟩ := List.getElem?_eq_some_iff.1 ht
  exact List.pairwise_iff_getElem.1 hpairwise i j hi hj hij

/-- The search finds the line at which the walk ends, and the line starts there. -/
theorem lineOf_eq_locate (cs : List Char) (o : Nat) :
    ∃ start, (ofChars cs).lineStarts[(ofChars cs).lineOf o]? = some start ∧ start ≤ o ∧
      locate 0 0 o (startsFrom 0 cs) = ⟨(ofChars cs).lineOf o, o - start⟩ := by
  obtain ⟨hlt, hspec⟩ := lineOf_spec (sorted_ofChars cs) rfl o
  obtain ⟨ends, others, hstarts, hends, hothers⟩ := exists_parted (pairwise_startsFrom 0 cs) o
  have hlast : (ofChars cs).lineStarts[ends.length]? = some (ends.getLast?.getD 0) := by
    rw [ofChars, List.getElem?_toArray, hstarts, ← List.cons_append,
      List.getElem?_append_left (by simp),
      show ends.length = (0 :: ends).length - 1 by simp, ← List.getLast?_eq_getElem?, List.getLast?_cons]
  have hle : ends.getLast?.getD 0 ≤ o := by
    cases hlast : ends.getLast? with
    | none => exact Nat.zero_le o
    | some e => exact hends e (List.mem_of_getLast? hlast)
  have hline : (ofChars cs).lineOf o = ends.length := by
    refine Nat.le_antisymm (Nat.not_lt.1 fun hgt => ?_) ((hspec _ _ hlast).1 hle)
    -- the line that was found would start behind the offset
    obtain ⟨s, hs⟩ : ∃ s, (ofChars cs).lineStarts[(ofChars cs).lineOf o]? = some s :=
      ⟨_, Array.getElem?_eq_getElem hlt⟩
    have hle := (hspec _ _ hs).2 (Nat.le_refl _)
    generalize (ofChars cs).lineOf o = line at hs hgt
    rw [ofChars, List.getElem?_toArray, hstarts, ← List.cons_append,
      List.getElem?_append_right (Nat.succ_le_of_lt hgt)] at hs
    exact absurd hle (Nat.not_le.2 (hothers s (List.mem_of_getElem? hs)))
  refine ⟨_, hline ▸ hlast, hle, ?_⟩
  rw [hstarts, locate_append hothers, locate_of_forall_le hends, hline, Nat.zero_add]

/-- The search has the result of the walk. -/
theorem lineCol_eq_locate (cs : List Char) (o : Nat) :
    (ofChars cs).lineCol o = locate 0 0 (min o (byteLength cs)) (startsFrom 0 cs) := by
  obtain ⟨start, hstart, -, hwalk⟩ := lineOf_eq_locate cs (min o (byteLength cs))
  have hsize : (ofChars cs).size = byteLength cs := rfl
  rw [hwalk, lineCol, hsize, hstart, Option.getD_some]

/-- In a text the line that was found is there, and does not start behind the offset. -/
theorem lineCol?_eq (cs : List Char) (o : Nat) :
    (ofChars cs).lineCol? o = some ((ofChars cs).lineCol o) := by
  obtain ⟨start, hstart, hle, -⟩ := lineOf_eq_locate cs (min o (byteLength cs))
  have hsize : (ofChars cs).size = byteLength cs := rfl
  rw [lineCol?, lineCol, hsize, hstart, Option.bind_eq_bind, Option.bind_some, if_pos hle, Option.getD_some]

end LineIndex
end TemplateSyntax
