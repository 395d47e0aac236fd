import Mathlib.Data.List.Perm.Subperm
import TemplateSyntax.Proofs.AppendPlaces

/-! # Looking up lines and columns

The line of an offset is the number of line breaks that end at or before it, and its column is how far
behind the last of them it is.  An offset can be read off its line and column again, and the positions
of the host file are in the order of the offsets: the first line of a template may stand further to the
right than the others, but it stands above them. -/

namespace TemplateSyntax

open Text (byteLength From EndsLine)

variable {cs : List Char} {c : Char} {origin : Origin} {x y o pos : Nat}

/-! ## Where lines end -/

namespace Text

/-- A line break of the text ends at the offset. -/
def BreakEndsAt (cs : List Char) (o : Nat) : Prop :=
  ∃ a c post, From cs a (c :: post) ∧ EndsLine c post ∧ o = a + c.utf8Size

theorem not_breakEndsAt_nil : ¬ BreakEndsAt [] o := by
  rintro ⟨a, c, post, ⟨pre, heq, -⟩, -⟩
  simp at heq

/-- A text with a further character in front has the breaks that it had, and the one that this
character may be. -/
theorem breakEndsAt_cons_iff : BreakEndsAt (c :: cs) o ↔
    (EndsLine c cs ∧ o = c.utf8Size) ∨ ∃ a, BreakEndsAt cs a ∧ o = c.utf8Size + a := by
  constructor
  · rintro ⟨a, d, post, ⟨pre, heq, rfl⟩, hends, rfl⟩
    cases pre with
    | nil =>
      obtain ⟨rfl, rfl⟩ := List.cons.inj heq
      exact .inl ⟨hends, Nat.zero_add _⟩
    | cons e pre =>
      obtain ⟨rfl, rfl⟩ := List.cons.inj heq
      exact .inr ⟨_, ⟨_, d, post, ⟨pre, rfl, rfl⟩, hends, rfl⟩, Nat.add_assoc ..⟩
  · rintro (⟨hends, rfl⟩ | ⟨a, ⟨b, d, post, ⟨pre, rfl, rfl⟩, hends, rfl⟩, rfl⟩)
    · exact ⟨0, c, cs, From.start _, hends, (Nat.zero_add _).symm⟩
    · exact ⟨_, d, post, ⟨c :: pre, rfl, rfl⟩, hends, (Nat.add_assoc ..).symm⟩

end Text

open Text (BreakEndsAt)

namespace LineIndex

/-- The lines of a text begin where its line breaks end. -/
theorem mem_startsFrom_iff : x ∈ startsFrom pos cs ↔ ∃ e, BreakEndsAt cs e ∧ x = pos + e := by
  induction cs generalizing pos with
  | nil => simp [startsFrom, Text.not_breakEndsAt_nil]
  | cons c cs ih =>
    rw [startsFrom_cons, List.mem_append, ih]
    simp only [Text.breakEndsAt_cons_iff]
    constructor
    · rintro (h | ⟨e, he, rfl⟩)
      · split at h
        · next hends => exact ⟨_, .inl ⟨hends, rfl⟩, List.mem_singleton.1 h⟩
        · simp at h
      · exact ⟨_, .inr ⟨e, he, rfl⟩, Nat.add_assoc ..⟩
    · rintro ⟨_, ⟨hends, rfl⟩ | ⟨e, he, rfl⟩, rfl⟩
      · exact .inl (by rw [if_pos hends]; exact List.mem_singleton_self _)
      · exact .inr ⟨e, he, (Nat.add_assoc ..).symm⟩

end LineIndex

/-- The line breaks of a text that end at or before an offset, in order. -/
structure Text.BreaksUpTo (cs : List Char) (o : Nat) (ends : List Nat) : Prop where
  increasing : ends.Pairwise (· < ·)
  mem_iff : ∀ e, e ∈ ends ↔ BreakEndsAt cs e ∧ e ≤ o

namespace LineIndex

/-- What an offset of the text is looked up to. -/
structure LooksUp (cs : List Char) (o : Nat) (ends : List Nat) : Prop extends
    Text.BreaksUpTo cs o ends where
  lineCol : (ofChars cs).lineCol o = ⟨ends.length, o - ends.getLast?.getD 0⟩
  lineStart : (ofChars cs).lineStart? ends.length = some (ends.getLast?.getD 0)
  le : ends.getLast?.getD 0 ≤ o

theorem exists_looksUp (h : o ≤ byteLength cs) : ∃ ends, LooksUp cs o ends := by
  obtain ⟨ends, others, hstarts, hends, hothers⟩ := exists_parted (pairwise_startsFrom 0 cs) o
  have hincreasing := pairwise_startsFrom 0 cs
  rw [hstarts] at hincreasing
  refine ⟨ends, ⟨⟨(List.pairwise_append.1 hincreasing).1, fun e => ?_⟩, ?_, ?_, ?_⟩⟩
  · have hmem : e ∈ ends ++ others ↔ BreakEndsAt cs e := by
      rw [← hstarts, mem_startsFrom_iff]
      simp
    rw [← hmem, List.mem_append]
    constructor
    · exact fun he => ⟨.inl he, hends e he⟩
    · rintro ⟨he | he, hle⟩
      · exact he
      · exact absurd (hothers e he) (Nat.not_lt.2 hle)
  · rw [lineCol_eq_locate, Nat.min_eq_left h, hstarts, locate_append hothers,
      locate_of_forall_le hends, Nat.zero_add]
  · rw [lineStart?, ofChars, List.getElem?_toArray, hstarts, ← List.cons_append,
      List.getElem?_append_left (by simp)]
    rw [show ends.length = (0 :: ends).length - 1 by simp, ← List.getLast?_eq_getElem?,
      List.getLast?_cons]
  · cases hlast : ends.getLast? with
    | none => exact Nat.zero_le o
    | some e => exact hends e (List.mem_of_getLast? hlast)

theorem LooksUp.offset? {ends : List Nat} (h : LooksUp cs o ends) :
    (ofChars cs).offset? ((ofChars cs).lineCol o) = some o := by
  rw [LineIndex.offset?, h.lineCol, h.lineStart, Option.map_some,
    Nat.add_sub_of_le h.le]

theorem lineCol_of_size_le (h : byteLength cs ≤ o) :
    (ofChars cs).lineCol o = (ofChars cs).lineCol (byteLength cs) := by
  rw [lineCol, lineCol, show (ofChars cs).size = byteLength cs from rfl, Nat.min_eq_right h,
    Nat.min_self]

/-- Of two offsets the later one is on a later line, or further behind on the same line. -/
theorem lineCol_lt (hxy : x < y) (hy : y ≤ byteLength cs) :
    ((ofChars cs).lineCol x).line < ((ofChars cs).lineCol y).line ∨
      ((ofChars cs).lineCol x).line = ((ofChars cs).lineCol y).line ∧
        ((ofChars cs).lineCol x).col < ((ofChars cs).lineCol y).col := by
  obtain ⟨front, hx⟩ := exists_looksUp (Nat.le_trans (Nat.le_of_lt hxy) hy)
  obtain ⟨ends, hy⟩ := exists_looksUp hy
  have hsub : front ⊆ ends := fun e he => by
    obtain ⟨hbreak, hle⟩ := (hx.mem_iff e).1 he
    exact (hy.mem_iff e).2 ⟨hbreak, Nat.le_trans hle (Nat.le_of_lt hxy)⟩
  have hlength : front.length ≤ ends.length :=
    (List.subperm_of_subset (hx.increasing.imp Nat.ne_of_lt) hsub).length_le
  rw [hx.lineCol, hy.lineCol]
  rcases Nat.lt_or_eq_of_le hlength with hlt | heq
  · exact .inl hlt
  · -- the two offsets are on one line, and so have the same line start
    have hstart : front.getLast?.getD 0 = ends.getLast?.getD 0 := by
      have hfront := hx.lineStart
      rw [heq, hy.lineStart] at hfront
      exact (Option.some.inj hfront).symm
    have hle := hx.le
    exact .inr ⟨heq, by dsimp only; omega⟩

end LineIndex

/-! ## Positions of the host file -/

/-- A position is on an earlier line, or further in front on the same line. -/
def Position.Before (p q : Position) : Prop :=
  p.line < q.line ∨ p.line = q.line ∧ p.column < q.column

theorem Position.Before.ne {p q : Position} (h : p.Before q) : p ≠ q := by
  rintro rfl
  rcases h with h | ⟨-, h⟩ <;> exact absurd h (Nat.lt_irrefl _)

namespace Locator

theorem covers_ofChars_iff : (ofChars cs origin).covers x = true ↔
    ∃ o ≤ byteLength cs, x = (ofChars cs origin).host o := by
  rw [covers, Bool.and_eq_true, decide_eq_true_iff, decide_eq_true_iff,
    show (ofChars cs origin).index.size = byteLength cs from rfl]
  unfold host
  constructor
  · rintro ⟨hlo, hhi⟩
    exact ⟨x - (ofChars cs origin).origin.offset, by omega, by omega⟩
  · rintro ⟨o, ho, rfl⟩
    omega

/-- Further back in the template is further back in the host file. -/
theorem position_host_before (hxy : x < y) (hy : y ≤ byteLength cs) :
    ((ofChars cs origin).position ((ofChars cs origin).host x)).Before
      ((ofChars cs origin).position ((ofChars cs origin).host y)) := by
  have hrelative : ∀ o, (ofChars cs origin).relative ((ofChars cs origin).host o) = o :=
    fun o => Nat.add_sub_cancel_left ..
  have hindex : (ofChars cs origin).index = LineIndex.ofChars cs := rfl
  simp only [Position.Before, position, place, hrelative, hindex]
  rcases LineIndex.lineCol_lt hxy hy with hline | ⟨hline, hcol⟩
  · exact .inl (Nat.add_lt_add_left hline _)
  · refine .inr ⟨by rw [hline], ?_⟩
    rw [hline]
    split
    · exact Nat.add_lt_add_left hcol _
    · exact hcol

/-- Looking up lines and columns is exact and keeps the order.  Up to the end of the text, the line of an
offset is the number of line breaks that end at or before it, its column the distance from the last of
them, and the offset can be looked up again; an offset past the end is looked up as the end.  The
positions of the template in the host file follow each other as its offsets do, so that no two offsets
have the same one. -/
theorem lookup_exact (cs : List Char) (origin : Origin) :
    (∀ o ≤ byteLength cs, ∃ ends, Text.BreaksUpTo cs o ends ∧
      (LineIndex.ofChars cs).lineCol o = ⟨ends.length, o - ends.getLast?.getD 0⟩ ∧
      (LineIndex.ofChars cs).offset? ((LineIndex.ofChars cs).lineCol o) = some o) ∧
    (∀ o, byteLength cs ≤ o → (LineIndex.ofChars cs).lineCol o =
      (LineIndex.ofChars cs).lineCol (byteLength cs)) ∧
    (∀ x y, (ofChars cs origin).covers x = true → (ofChars cs origin).covers y = true →
      (x < y → ((ofChars cs origin).position x).Before ((ofChars cs origin).position y)) ∧
      ((ofChars cs origin).position x = (ofChars cs origin).position y → x = y)) := by
  refine ⟨fun o ho => ?_, fun o => LineIndex.lineCol_of_size_le, fun x y hx hy => ?_⟩
  · obtain ⟨ends, h⟩ := LineIndex.exists_looksUp ho
    exact ⟨ends, h.toBreaksUpTo, h.lineCol, h.offset?⟩
  · obtain ⟨i, hi, rfl⟩ := covers_ofChars_iff.1 hx
    obtain ⟨j, hj, rfl⟩ := covers_ofChars_iff.1 hy
    have horder : ∀ {a b}, (ofChars cs origin).host a < (ofChars cs origin).host b → a < b :=
      Nat.lt_of_add_lt_add_left
    refine ⟨fun hlt => position_host_before (horder hlt) hj, fun heq => ?_⟩
    rcases Nat.lt_trichotomy ((ofChars cs origin).host i) ((ofChars cs origin).host j)
      with hlt | hsame | hlt
    · exact absurd heq (position_host_before (horder hlt) hj).ne
    · exact hsame
    · exact absurd heq.symm (position_host_before (horder hlt) hi).ne

/-- The line feed of `\r\n` is on the line that it ends, and the text behind the last break is a line. -/
theorem lookup_exact_mixedBreaks :
    let cs := ['a', 'b', '\r', '\n', 'c', '\r']
    let l := ofChars cs ⟨40, 3, 12⟩
    3 ≤ byteLength cs ∧ (LineIndex.ofChars cs).lineCol 3 = ⟨0, 3⟩ ∧
      (LineIndex.ofChars cs).offset? ((LineIndex.ofChars cs).lineCol 3) = some 3 ∧
      byteLength cs ≤ 9 ∧ (LineIndex.ofChars cs).lineCol 9 = ⟨2, 0⟩ ∧
      l.covers 43 = true ∧ l.covers 46 = true ∧ l.position 43 = ⟨3, 15⟩ ∧ l.position 46 = ⟨5, 0⟩ ∧
      (l.position 43).Before (l.position 46) := by
  intro cs l
  obtain ⟨hwithin, hpast, hplaces⟩ := lookup_exact cs ⟨40, 3, 12⟩
  have hin : 3 ≤ byteLength cs ∧ byteLength cs ≤ 9 := by decide +kernel
  have hthird : (LineIndex.ofChars cs).lineCol 3 = ⟨0, 3⟩ := by decide +kernel
  have hend : (LineIndex.ofChars cs).lineCol (byteLength cs) = ⟨2, 0⟩ := by decide +kernel
  have hcovers : l.covers 43 = true ∧ l.covers 46 = true := by decide +kernel
  have hpositions : l.position 43 = ⟨3, 15⟩ ∧ l.position 46 = ⟨5, 0⟩ := by decide +kernel
  obtain ⟨-, -, -, hback⟩ := hwithin 3 hin.1
  exact ⟨hin.1, hthird, hback, hin.2, (hpast 9 hin.2).trans hend, hcovers.1, hcovers.2, hpositions.1,
    hpositions.2, (hplaces 43 46 hcovers.1 hcovers.2).1 (by decide)⟩

end Locator
end TemplateSyntax
