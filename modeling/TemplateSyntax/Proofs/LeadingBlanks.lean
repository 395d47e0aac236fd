import Mathlib.Data.List.TakeWhile
import TemplateSyntax.Proofs.FragmentNames

/-! # Blanks in front of an iteration

The `in` or `of` of an iteration follows a blank.  So blanks in front of the text make a difference
only where its first word is one of the two: that word has no blank in front of it in the text alone,
and may be an alias there.  Behind blanks it stands for the separator, and the alias is missing. -/

namespace TemplateSyntax

open Text (byteLength)

variable {w cs : List Char}

/-! ## The separator behind blanks -/

namespace Script.Scan

/-- Blanks that no blank follows are one token, which tells nothing of what follows. -/
theorem tokensFrom_blanks (operand : Bool) (hne : w ≠ []) (hw : ∀ c ∈ w, isBlank c = true)
    (hcs : cs.takeWhile isBlank = []) :
    tokensFrom operand (w ++ cs) = ⟨.whitespace, w⟩ :: tokensFrom operand cs := by
  obtain ⟨c, w, rfl⟩ := List.exists_cons_of_ne_nil hne
  obtain ⟨hc, hw⟩ := List.forall_mem_cons.1 hw
  have htoken : token operand c (w ++ cs) = (.whitespace, w.length) := by
    rw [token, if_pos hc, List.takeWhile_append_of_pos hw, hcs, List.append_nil]
  rw [List.cons_append, tokensFrom, htoken]
  dsimp only
  rw [List.take_left, List.drop_left]
  rfl

theorem splitIteration_blanks (hne : w ≠ []) (hw : ∀ c ∈ w, isBlank c = true)
    (hcs : cs.takeWhile isBlank = []) :
    splitIteration (w ++ cs) = halvesAt 0 (some .whitespace) w.reverse (tokensFrom false cs) := by
  rw [splitIteration, tokens, tokensFrom_blanks false hne hw hcs, halvesAt,
    if_neg (show ¬ _ by simp), List.append_nil]
  rfl

theorem takeWhile_isBlank_dropWhile (cs : List Char) :
    (cs.dropWhile isBlank).takeWhile isBlank = [] := by
  have hnot := List.head?_dropWhile_not isBlank cs
  cases hrest : cs.dropWhile isBlank with
  | nil => rfl
  | cons c rest =>
    rw [hrest] at hnot
    exact List.takeWhile_cons_of_neg (by simpa using hnot)

/-- Whether the first word of a text could part aliases from what they iterate over. -/
def startsWithSeparator (cs : List Char) : Bool := isSeparator (cs.takeWhile isWordPart)

theorem exists_of_startsWithSeparator (h : startsWithSeparator cs = true) :
    ∃ c rest, cs = c :: rest ∧ (c = 'i' ∨ c = 'o') := by
  cases cs with
  | nil => exact absurd h (by decide)
  | cons c rest =>
    refine ⟨c, rest, rfl, ?_⟩
    rw [startsWithSeparator, List.takeWhile_cons] at h
    split at h
    · simp only [isSeparator, Bool.or_eq_true, beq_iff_eq, List.cons.injEq] at h
      exact h.imp And.left And.left
    · exact absurd h (by decide)

/-- The halves of a text that has more in front of it. -/
def Halves.behind (w : List Char) (h : Halves) : Halves :=
  ⟨w ++ h.left, ⟨byteLength w + h.right.start, h.right.code⟩⟩

theorem halvesAt_behind (depth : Nat) (prev : Option ScanKind) (w seen : List Char)
    (ts : List ScanToken) :
    halvesAt depth prev (seen ++ w.reverse) ts =
      (halvesAt depth prev seen ts).map (Halves.behind w) := by
  induction ts generalizing depth prev seen with
  | nil => rfl
  | cons t ts ih =>
    rw [halvesAt, halvesAt]
    split
    · simp [Halves.behind, Text.byteLength_reverse]
      omega
    · rw [← List.append_assoc, ih]

/-- The first token of a text is a separator if the first word is. -/
theorem tokensFrom_separator {operand : Bool} {c : Char} {t : ScanToken} {ts : List ScanToken}
    (h : tokensFrom operand (c :: cs) = t :: ts) :
    (t.kind == .word && isSeparator t.text) = startsWithSeparator (c :: cs) := by
  rw [tokensFrom, List.cons.injEq] at h
  obtain ⟨rfl, -⟩ := h
  dsimp only
  by_cases hc : c = 'i' ∨ c = 'o'
  · have hword : isBlank c = false ∧ isWordStart c = true ∧ isWordPart c = true := by
      rcases hc with rfl | rfl <;> decide
    rw [token, if_neg (by simp [hword.1]), if_pos hword.2.1, startsWithSeparator,
      List.takeWhile_cons_of_pos hword.2.2, ← List.prefix_iff_eq_take.1 (List.takeWhile_prefix _)]
    rfl
  · have hnot (word : List Char) : isSeparator (c :: word) = false := by
      simp_all [isSeparator]
    have hstart : startsWithSeparator (c :: cs) = false := by
      rw [startsWithSeparator, List.takeWhile_cons]
      split
      · exact hnot _
      · rfl
    rw [hnot, Bool.and_false, hstart]

/-- The halves of tokens do not depend on what stands in front of them, unless the first of them is a
separator. -/
theorem halvesAt_prev {ts : List ScanToken}
    (h : ∀ t ∈ ts.head?, (t.kind == .word && isSeparator t.text) = false) (depth : Nat)
    (prev prev' : Option ScanKind) (seen : List Char) :
    halvesAt depth prev seen ts = halvesAt depth prev' seen ts := by
  cases ts with
  | nil => rfl
  | cons t ts =>
    have ht := h t rfl
    have hcut (x y : Bool) : (t.kind == .word && x && isSeparator t.text && y) = false := by
      grind
    rw [halvesAt, halvesAt, hcut, hcut]

theorem head?_separator (operand : Bool) (cs : List Char) :
    ∀ t ∈ (tokensFrom operand cs).head?, (t.kind == .word && isSeparator t.text) =
      startsWithSeparator cs := by
  intro t ht
  cases cs with
  | nil => simp [tokensFrom] at ht
  | cons c cs =>
    obtain ⟨ts, hts⟩ := List.head?_eq_some_iff.1 ht
    exact tokensFrom_separator hts

/-- Blanks in front of a text stay in front of its aliases, unless its first word is a separator. -/
theorem splitIteration_behind (hne : w ≠ []) (hw : ∀ c ∈ w, isBlank c = true)
    (h : startsWithSeparator cs = false) :
    splitIteration (w ++ cs) = (splitIteration cs).map (Halves.behind w) := by
  have hrest := takeWhile_isBlank_dropWhile cs
  have hfront : ∀ c ∈ cs.takeWhile isBlank, isBlank c = true := fun c hc => List.mem_takeWhile_imp hc
  have hcs := List.takeWhile_append_dropWhile (p := isBlank) (l := cs)
  have hall : ∀ c ∈ w ++ cs.takeWhile isBlank, isBlank c = true :=
    List.forall_mem_append.2 ⟨hw, hfront⟩
  have hsplit : splitIteration (w ++ cs) = (halvesAt 0 (some .whitespace)
      (cs.takeWhile isBlank).reverse (tokensFrom false (cs.dropWhile isBlank))).map
        (Halves.behind w) := by
    rw [← halvesAt_behind, ← List.reverse_append, ← splitIteration_blanks (by simp [hne]) hall hrest,
      List.append_assoc, hcs]
  rw [hsplit]
  congr 1
  cases hblanks : cs.takeWhile isBlank with
  | nil =>
    rw [hblanks, List.nil_append] at hcs
    rw [hcs, splitIteration, tokens]
    refine halvesAt_prev (fun t ht => ?_) ..
    rw [head?_separator false cs t ht, h]
  | cons c blanks =>
    rw [← hblanks]
    conv => rhs; rw [← hcs]
    exact (splitIteration_blanks (by simp [hblanks]) hfront hrest).symm

/-- Behind blanks, a first word that is a separator leaves no alias. -/
theorem splitIteration_separator (hne : w ≠ []) (hw : ∀ c ∈ w, isBlank c = true)
    (h : startsWithSeparator cs = true) : ∃ right, splitIteration (w ++ cs) = some ⟨w, right⟩ := by
  obtain ⟨c, rest, rfl, hc⟩ := exists_of_startsWithSeparator h
  have hblank : isBlank c = false := by rcases hc with rfl | rfl <;> decide
  rw [splitIteration_blanks hne hw (List.takeWhile_cons_of_neg (by simp [hblank]))]
  cases hts : tokensFrom false (c :: rest) with
  | nil => simp [tokensFrom] at hts
  | cons t ts =>
    have ht := tokensFrom_separator hts
    rw [h, Bool.and_eq_true] at ht
    rw [halvesAt, if_pos (by simp [ht.1, ht.2]), List.reverse_reverse]
    exact ⟨_, rfl⟩

end Script.Scan

/-! ## Trimming -/

namespace Text

theorem trimStart_append (hw : ∀ c ∈ w, Unicode.isWhiteSpace c = true) (cs : List Char) :
    trimStart (w ++ cs) = trimStart cs := List.dropWhile_append_of_pos hw

theorem isBlank_append (hw : ∀ c ∈ w, Unicode.isWhiteSpace c = true) (cs : List Char) :
    isBlank (w ++ cs) = isBlank cs := by
  rw [isBlank, List.all_append, List.all_eq_true.2 hw, Bool.true_and]
  rfl

theorem trimEnd_append (w : List Char) (h : isBlank cs = false) :
    trimEnd (w ++ cs) = w ++ trimEnd cs := by
  have hne : (cs.reverse.dropWhile Unicode.isWhiteSpace).isEmpty = false := by
    rw [Bool.eq_false_iff, ne_eq, List.isEmpty_iff, List.dropWhile_eq_nil_iff]
    intro hall
    rw [isBlank, List.all_eq_true.2 fun c hc => hall c (List.mem_reverse.2 hc)] at h
    exact nomatch h
  rw [trimEnd, trimEnd, List.reverse_append, List.dropWhile_append, hne]
  simp

end Text

/-! ## Reading behind blanks -/

namespace Fragment

variable (f : Fragment)

/-- The fragment with more in front of its text, on the same map. -/
def behind (w : List Char) : Fragment := { f with code := w ++ f.code }

/-- The fragment as it stands `d` bytes behind the first index of its map. -/
def shifted (d : Nat) : Fragment := { f with map := f.map.shift d }

variable {f} {halves : Script.Scan.Halves}

theorem readIteration_of_halves (hblank : f.isBlank = false)
    (hsplit : Script.Scan.splitIteration f.code = some halves)
    (hleft : (f.part 0 halves.left).isBlank = false) :
    f.readIteration = iterationOf (f.aliasPart halves.left)
      (f.part halves.right.start halves.right.code) (betweenParens? (Text.trim halves.left)).isSome
      (f.part 0 halves.left).trimmedSpan
      (f.map.span (f.part 0 halves.left).trimStart
        (halves.right.start + (f.part halves.right.start halves.right.code).trimStop)) := by
  rw [readIteration, hblank, if_neg Bool.false_ne_true, hsplit]
  dsimp only
  rw [hleft, if_neg Bool.false_ne_true]
  unfold aliasPart
  dsimp only
  cases betweenParens? (Text.trim halves.left) <;> rfl

/-- An iteration without separator or alias is none. -/
theorem readIteration_none (hblank : f.isBlank = false)
    (hsplit : ∀ halves ∈ Script.Scan.splitIteration f.code, Text.isBlank halves.left = true) :
    f.readIteration = .error (f.failure 0
      (if (Script.Scan.splitIteration f.code).isSome then .expectedAlias else .expectedSeparator)) := by
  rw [readIteration, hblank]
  cases h : Script.Scan.splitIteration f.code with
  | none => rfl
  | some halves =>
    have hleft : (f.part 0 halves.left).isBlank = true := hsplit halves h
    dsimp only
    rw [hleft]
    rfl

theorem part_behind (f : Fragment) (w : List Char) (start : Nat) (code : List Char) :
    (f.behind w).part (byteLength w + start) code = (f.shifted (byteLength w)).part start code := by
  simp only [part, behind, shifted, OffsetMap.shift_shift]
  rfl

theorem offset_behind (f : Fragment) (w : List Char) (i : Nat) :
    (f.behind w).map.offset (byteLength w + i) = (f.shifted (byteLength w)).map.offset i := by
  refine (OffsetMap.offset_shift _ ?_).symm
  omega

theorem span_behind (f : Fragment) (w : List Char) (i j : Nat) :
    (f.behind w).map.span (byteLength w + i) (byteLength w + j) =
      (f.shifted (byteLength w)).map.span i j := by
  rw [OffsetMap.span, offset_behind, offset_behind]
  rfl

theorem trimStart_behind (hw : ∀ c ∈ w, Unicode.isWhiteSpace c = true) (left : List Char) :
    ((f.behind w).part 0 (w ++ left)).trimStart = byteLength w + (f.part 0 left).trimStart := by
  have hle : byteLength (Text.trimStart left) ≤ byteLength left := by
    obtain ⟨blanks, heq, -⟩ := Text.trimStart_eq_drop left
    have hsize := congrArg byteLength heq
    rw [Text.byteLength_append] at hsize
    omega
  simp only [trimStart, part]
  rw [Text.trimStart_append hw, Text.byteLength_append]
  omega

theorem trimmedSpan_behind (hw : ∀ c ∈ w, Unicode.isWhiteSpace c = true) {left : List Char}
    (hleft : Text.isBlank left = false) :
    ((f.behind w).part 0 (w ++ left)).trimmedSpan =
      ((f.shifted (byteLength w)).part 0 left).trimmedSpan := by
  have hstop : ((f.behind w).part 0 (w ++ left)).trimStop =
      byteLength w + (f.part 0 left).trimStop := by
    simp only [trimStop, part]
    rw [Text.trimEnd_append w hleft, Text.byteLength_append]
  have hmap (g : Fragment) (cs : List Char) : (g.part 0 cs).map = g.map := by
    simp [part, OffsetMap.shift]
  rw [trimmedSpan, trimmedSpan, trimStart_behind hw, hstop, hmap, hmap, span_behind]
  rfl

theorem aliasPart_behind (hw : ∀ c ∈ w, Unicode.isWhiteSpace c = true) (left : List Char) :
    (f.behind w).aliasPart (w ++ left) = (f.shifted (byteLength w)).aliasPart left := by
  have htrim : Text.trim (w ++ left) = Text.trim left := by
    rw [Text.trim, Text.trimStart_append hw]
    rfl
  unfold aliasPart
  dsimp only
  rw [htrim, trimStart_behind hw, Nat.add_assoc]
  cases betweenParens? (Text.trim left) with
  | none => exact part_behind ..
  | some code => exact part_behind ..

/-- Blanks are of no account in front of an iteration, unless its first word is a separator: what is
read stands as many bytes further on in the map. -/
theorem readIteration_shifted (hne : w ≠ []) (hscan : ∀ c ∈ w, Script.Scan.isBlank c = true)
    (hw : ∀ c ∈ w, Unicode.isWhiteSpace c = true)
    (h : Script.Scan.startsWithSeparator f.code = false) :
    (f.behind w).readIteration.toOption = (f.shifted (byteLength w)).readIteration.toOption := by
  have hblank : (f.behind w).isBlank = f.isBlank := Text.isBlank_append hw f.code
  have hshifted : (f.shifted (byteLength w)).isBlank = f.isBlank := rfl
  have hcode : (f.shifted (byteLength w)).code = f.code := rfl
  cases hf : f.isBlank with
  | true =>
    rw [hf] at hblank hshifted
    rw [readIteration, if_pos hblank, readIteration, if_pos hshifted]
  | false =>
    rw [hf] at hblank hshifted
    have hsplit : Script.Scan.splitIteration (f.behind w).code = _ :=
      Script.Scan.splitIteration_behind hne hscan h
    cases hhalves : Script.Scan.splitIteration f.code with
    | none =>
      rw [hhalves] at hsplit
      rw [readIteration_none hblank (by simp [hsplit]),
        readIteration_none hshifted (by simp [hcode, hhalves])]
      rfl
    | some halves =>
      rw [hhalves] at hsplit
      have hall := Text.isBlank_append hw halves.left
      cases hleft : Text.isBlank halves.left with
      | true =>
        rw [hleft] at hall
        rw [readIteration_none hblank, readIteration_none hshifted]
        · rfl
        · simpa [hcode, hhalves] using hleft
        · simpa [hsplit, Script.Scan.Halves.behind] using hall
      | false =>
        rw [hleft] at hall
        have hright := part_behind f w halves.right.start halves.right.code
        rw [readIteration_of_halves hblank hsplit hall, readIteration_of_halves hshifted hhalves hleft]
        simp only [Script.Scan.Halves.behind]
        rw [aliasPart_behind hw, hright, trimmedSpan_behind hw hleft, trimStart_behind hw,
          Nat.add_assoc, span_behind, Text.trim, Text.trimStart_append hw]
        rfl

end Fragment

/-! ## Maps without gaps -/

/-- There are no gaps, and none of the indices up to `size` is raised to zero or leaves a word. -/
structure OffsetMap.Gapless (m : OffsetMap) (size : Nat) : Prop where
  gaps : m.gaps = #[]
  shiftBy : 0 ≤ m.shiftBy
  fits : m.base + m.shiftBy.toNat + size < Offset.limit

theorem OffsetMap.Gapless.atOffset {base size : Nat} (h : base + size < Offset.limit) :
    (OffsetMap.atOffset #[] base).Gapless size := ⟨rfl, Int.le_refl 0, h⟩

theorem OffsetMap.Gapless.offset_eq {m : OffsetMap} {size i : Nat} (h : m.Gapless size)
    (hi : i ≤ size) : m.offset i = m.base + m.shiftBy.toNat + i := by
  have hskipped (target : Nat) : m.skipped target = 0 := by
    rw [skipped, h.gaps, search, if_neg (by simp)]
  have hshift := h.shiftBy
  have hfits := h.fits
  have hsteps : m.steps i = m.shiftBy.toNat + i := by
    rw [steps, Nat.mod_eq_of_lt] <;> omega
  rw [offset, hskipped, hsteps]
  omega

/-- All offsets go `d` bytes on, on the same lines and in the same nodes. -/
def Move.ahead (d : Nat) : Move := ⟨(d + ·), id, fun _ p => p, Nat.add_lt_add_iff_left⟩

namespace Fragment

variable {f : Fragment}

theorem follows_shifted {d : Nat} (h : f.map.Gapless (d + byteLength f.code)) :
    Follows (Move.ahead d) f (f.shifted d) where
  code := rfl
  lang := rfl
  reader := rfl
  offset i hi := by
    have hshift : (f.shifted d).map.offset i = f.map.offset (d + i) :=
      OffsetMap.offset_shift _ (by omega)
    rw [hshift, h.offset_eq (by omega), h.offset_eq (by omega)]
    simp only [Move.ahead]
    omega

/-- What is read of an iteration with blanks in front is what is read without them, moved by the blanks,
or nothing if nothing is.  Only a text whose first word is `in` or `of` is another one behind blanks:
there the word is the separator, and the alias in front of it is missing. -/
theorem readIteration_behindBlanks (f : Fragment) (w : List Char) (hne : w ≠ [])
    (hw : ∀ c ∈ w, c = ' ' ∨ c = '\t' ∨ c = '\n')
    (hmap : f.map.Gapless (byteLength (w ++ f.code))) :
    if Script.Scan.startsWithSeparator f.code then
      (f.behind w).readIteration = .error (f.failure 0 .expectedAlias)
    else
      (f.behind w).readIteration.toOption =
        f.readIteration.toOption.map (Move.ahead (byteLength w)).embedded := by
  have hscan : ∀ c ∈ w, Script.Scan.isBlank c = true := fun c hc => by
    rcases hw c hc with rfl | rfl | rfl <;> decide
  have hwhite : ∀ c ∈ w, Unicode.isWhiteSpace c = true := fun c hc => by
    rcases hw c hc with rfl | rfl | rfl <;> decide
  split
  · next hword =>
    obtain ⟨c, rest, hcode, hc⟩ := Script.Scan.exists_of_startsWithSeparator hword
    obtain ⟨right, hsplit⟩ := Script.Scan.splitIteration_separator hne hscan hword
    have hblank : (f.behind w).isBlank = false := by
      refine (Text.isBlank_append hwhite f.code).trans ?_
      rw [hcode]
      rcases hc with rfl | rfl <;> rfl
    have hsplit : Script.Scan.splitIteration (f.behind w).code = some ⟨w, right⟩ := hsplit
    have hleft : Text.isBlank w = true := List.all_eq_true.2 hwhite
    rw [readIteration_none hblank (by simpa [hsplit] using hleft), hsplit]
    rfl
  · next hword =>
    rw [Text.byteLength_append] at hmap
    rw [readIteration_shifted hne hscan hwhite (by simpa using hword),
      readIteration_follows (follows_shifted hmap)]
    cases f.readIteration <;> rfl

/-- The theorem at aliases in parentheses. -/
theorem readIteration_behindBlanks_aliases :
    let f : Fragment := ⟨"(a, b) of xs".toList, .atOffset #[] 7, .typeScript, Script.parse⟩
    let w := [' ', '\n', '\t']
    w ≠ [] ∧ (∀ c ∈ w, c = ' ' ∨ c = '\t' ∨ c = '\n') ∧ f.map.Gapless (byteLength (w ++ f.code)) ∧
      f.readIteration.toOption.map (fun e => e.bindings.toList.map Variable.span) =
        some [⟨8, 9⟩, ⟨11, 12⟩] ∧
      (f.behind w).readIteration.toOption =
        f.readIteration.toOption.map (Move.ahead (byteLength w)).embedded := by
  intro f w
  have hne : w ≠ [] := by decide
  have hw : ∀ c ∈ w, c = ' ' ∨ c = '\t' ∨ c = '\n' := by simp [w]
  have hmap : f.map.Gapless (byteLength (w ++ f.code)) := .atOffset (by decide +kernel)
  have hmoved := readIteration_behindBlanks f w hne hw hmap
  rw [if_neg (show ¬ Script.Scan.startsWithSeparator f.code = true by decide +kernel)] at hmoved
  exact ⟨hne, hw, hmap, by decide +kernel, hmoved⟩

/-- An alias with the name of a separator is read where nothing stands in front of it, and not behind a
blank. -/
theorem readIteration_behindBlank_of :
    let f : Fragment := ⟨"of in xs".toList, .atOffset #[] 0, .javaScript, Script.parse⟩
    f.map.Gapless (byteLength (' ' :: f.code)) ∧
      f.readIteration.toOption.map (fun e => e.bindings.toList.map Variable.name) = some ["of"] ∧
      (f.behind [' ']).readIteration.toOption = none ∧
      ¬ (f.behind [' ']).readIteration.toOption =
        f.readIteration.toOption.map (Move.ahead (byteLength [' '])).embedded := by
  intro f
  have hread : f.readIteration.toOption.map (fun e => e.bindings.toList.map Variable.name) =
      some ["of"] := by decide +kernel
  have hbehind : (f.behind [' ']).readIteration.toOption = none := by decide +kernel
  refine ⟨.atOffset (by decide +kernel), hread, hbehind, fun heq => ?_⟩
  rw [hbehind, eq_comm, Option.map_eq_none_iff] at heq
  rw [heq] at hread
  exact nomatch hread

end Fragment

end TemplateSyntax
