import Mathlib.Logic.Basic
import TemplateSyntax.Embedded.Iteration
import TemplateSyntax.Proofs.Position

/-! # Parts of a fragment

A fragment is cut at filters, at the separator of an iteration, and at its blanks and parentheses.
Each part stands in the text at the byte index that it is said to start at, so that no cut goes
through a character or past the end. -/

namespace TemplateSyntax

open Text (byteLength Between From)

/-- Steps of reading that have a result. -/
theorem Fragment.bind_ok {ε α β : Type} {x : Except ε α} {k : α → Except ε β} {b : β}
    (h : (x >>= k) = .ok b) : ∃ a, x = .ok a ∧ k a = .ok b := by
  cases x with
  | ok a => exact ⟨a, rfl, h⟩
  | error e => exact nomatch h

/-! ## Blanks -/

namespace Text

theorem byteLength_reverse (cs : List Char) : byteLength cs.reverse = byteLength cs := by
  induction cs with
  | nil => rfl
  | cons c cs ih =>
    rw [List.reverse_cons, byteLength_append, ih, byteLength_cons, byteLength_cons, byteLength_nil]
    omega

/-- A piece of a piece. -/
theorem Between.inside {cs mid code : List Char} {lo hi a b : Nat} (h : Between cs lo mid hi)
    (hin : Between mid a code b) : Between cs (lo + a) code (lo + b) := by
  obtain ⟨-, post, pre, hcs, hpre⟩ := h
  obtain ⟨hb, tail, front, hmid, hfront⟩ := hin
  refine ⟨by omega, tail ++ post, pre ++ front, ?_, by rw [byteLength_append, hpre, hfront]⟩
  rw [hcs, hmid]
  simp only [List.append_assoc]

theorem trimStart_eq_drop (cs : List Char) :
    ∃ blanks, cs = blanks ++ trimStart cs ∧
      byteLength blanks = byteLength cs - byteLength (trimStart cs) := by
  have happend := List.takeWhile_append_dropWhile (p := Unicode.isWhiteSpace) (l := cs)
  refine ⟨_, happend.symm, ?_⟩
  have hsize := congrArg byteLength happend
  rw [byteLength_append] at hsize
  unfold trimStart
  omega

/-- The text without the blanks at its end is at its front. -/
theorem between_trimEnd (cs : List Char) : Between cs 0 (trimEnd cs) (byteLength (trimEnd cs)) := by
  have happend := List.takeWhile_append_dropWhile (p := Unicode.isWhiteSpace) (l := cs.reverse)
  have heq : cs = trimEnd cs ++ (cs.reverse.takeWhile Unicode.isWhiteSpace).reverse := by
    unfold trimEnd
    rw [← List.reverse_append, happend, List.reverse_reverse]
  exact ⟨(Nat.zero_add _).symm, _, [], heq, rfl⟩

end Text

namespace Fragment

variable (f : Fragment)

/-- The text without its blanks stands behind those in front. -/
theorem between_trim : Between f.code f.trimStart (Text.trim f.code)
    (f.trimStart + byteLength (Text.trim f.code)) := by
  obtain ⟨blanks, heq, hsize⟩ := Text.trimStart_eq_drop f.code
  have hrest : Between f.code f.trimStart (Text.trimStart f.code)
      (f.trimStart + byteLength (Text.trimStart f.code)) :=
    ⟨rfl, [], blanks, by rwa [List.append_nil], hsize⟩
  have hin := hrest.inside (Text.between_trimEnd (Text.trimStart f.code))
  rwa [Nat.add_zero] at hin

theorem trimStart_le : f.trimStart ≤ byteLength f.code := Nat.sub_le _ _

theorem trimStop_le : f.trimStop ≤ byteLength f.code := (Text.between_trimEnd f.code).le_size

/-- The text between parentheses stands behind the first of them. -/
theorem betweenParens?_between {cs inner : List Char} (h : betweenParens? cs = some inner) :
    Between cs 1 inner (1 + byteLength inner) := by
  unfold betweenParens? at h
  split at h
  · next rest =>
    split at h
    · next hlast =>
      obtain rfl := Option.some.inj h
      have hne : rest ≠ [] := by
        rintro rfl
        simp at hlast
      refine ⟨rfl, [rest.getLast hne], ['('], ?_, rfl⟩
      rw [List.dropLast_concat_getLast]
      rfl
    · simp at h
  · simp at h

end Fragment

/-! ## Filters and iterations -/

namespace Script.Scan

/-- A mark of a filter is one byte long. -/
theorem token_pipe {operand : Bool} {c : Char} {cs : List Char} {n : Nat}
    (h : token operand c cs = (.pipe, n)) : c = '|' ∧ n = 0 := by
  unfold token at h
  rw [ite_eq_iff] at h
  rcases h with ⟨-, h⟩ | ⟨-, h⟩
  · simp at h
  rw [ite_eq_iff] at h
  rcases h with ⟨-, h⟩ | ⟨-, h⟩
  · simp at h
  rw [ite_eq_iff] at h
  rcases h with ⟨-, h⟩ | ⟨-, h⟩
  · simp at h
  -- a string or a template that is not closed is no mark of a filter either
  rw [ite_eq_iff] at h
  rcases h with ⟨-, h⟩ | ⟨-, h⟩
  · grind
  rw [ite_eq_iff] at h
  rcases h with ⟨-, h⟩ | ⟨-, h⟩
  · grind
  rw [ite_eq_iff] at h
  rcases h with ⟨hc, h⟩ | ⟨-, h⟩
  · grind
  · grind

theorem tokensFrom_pipe {operand : Bool} {cs : List Char} {t : ScanToken}
    (h : t ∈ tokensFrom operand cs) (hk : t.kind = .pipe) : byteLength t.text = 1 := by
  fun_induction tokensFrom operand cs with
  | case1 => simp at h
  | case2 operand c cs kind n htoken ih =>
    rcases List.mem_cons.1 h with rfl | h
    · obtain rfl : kind = .pipe := hk
      obtain ⟨rfl, rfl⟩ := token_pipe htoken
      rfl
    · exact ih h

/-- Each part stands in the text. -/
theorem splitAt_between {code : List Char} {depth start : Nat} {seen : List Char}
    {ts : List ScanToken} {p : Part} (hts : ∀ t ∈ ts, t.kind = .pipe → byteLength t.text = 1)
    (hfrom : From code start (seen.reverse ++ (ts.map ScanToken.text).flatten))
    (h : p ∈ splitAt depth start seen ts) :
    Between code p.start p.code (p.start + byteLength p.code) := by
  induction ts generalizing depth start seen with
  | nil =>
    obtain rfl := List.mem_singleton.1 h
    exact hfrom.between
  | cons t ts ih =>
    have hrest : ∀ t ∈ ts, t.kind = .pipe → byteLength t.text = 1 :=
      fun u hu => hts u (List.mem_cons_of_mem t hu)
    rw [List.map_cons, List.flatten_cons] at hfrom
    rw [splitAt] at h
    split at h
    · next hpipe =>
      rcases List.mem_cons.1 h with rfl | h
      · exact hfrom.between
      · rw [Bool.and_eq_true, beq_iff_eq] at hpipe
        have hnext := hfrom.append.append
        rw [Text.byteLength_reverse, hts t (by simp) hpipe.1] at hnext
        exact ih hrest hnext h
    · refine ih hrest ?_ h
      rwa [List.reverse_append, List.reverse_reverse, List.append_assoc]

theorem splitFilters_between {code : List Char} {p : Part} (h : p ∈ splitFilters code) :
    Between code p.start p.code (p.start + byteLength p.code) := by
  have hfrom : From code 0 ([].reverse ++ ((tokens code).map ScanToken.text).flatten) := by
    rw [tokens, flatten_tokensFrom]
    exact From.start code
  exact splitAt_between (fun t ht => tokensFrom_pipe ht) hfrom h

/-- So do the two halves of an iteration. -/
theorem halvesAt_between {code : List Char} {depth : Nat} {prev : Option ScanKind}
    {seen : List Char} {ts : List ScanToken} {x : Halves}
    (hfrom : From code 0 (seen.reverse ++ (ts.map ScanToken.text).flatten))
    (h : halvesAt depth prev seen ts = some x) :
    Between code 0 x.left (byteLength x.left) ∧ byteLength x.left ≤ x.right.start ∧
      Between code x.right.start x.right.code (byteLength code) := by
  induction ts generalizing depth prev seen with
  | nil => simp [halvesAt] at h
  | cons t ts ih =>
    rw [List.map_cons, List.flatten_cons] at hfrom
    rw [halvesAt] at h
    split at h
    · next hsep =>
      obtain rfl := Option.some.inj h
      have hword : byteLength t.text = 2 := by
        simp only [Bool.and_eq_true, isSeparator, Bool.or_eq_true, beq_iff_eq] at hsep
        rcases hsep.1.2 with heq | heq <;> rw [heq] <;> rfl
      have hleft := hfrom.between
      have hright := hfrom.append.append
      rw [Nat.zero_add] at hleft
      rw [Nat.zero_add, Text.byteLength_reverse, hword] at hright
      refine ⟨hleft, ?_, hright.size.symm, [], ?_⟩
      · simp only [Text.byteLength_reverse]
        omega
      · rwa [List.append_nil]
    · refine ih ?_ h
      rwa [List.reverse_append, List.reverse_reverse, List.append_assoc]

theorem splitIteration_between {code : List Char} {x : Halves} (h : splitIteration code = some x) :
    Between code 0 x.left (byteLength x.left) ∧ byteLength x.left ≤ x.right.start ∧
      Between code x.right.start x.right.code (byteLength code) := by
  have hfrom : From code 0 ([].reverse ++ ((tokens code).map ScanToken.text).flatten) := by
    rw [tokens, flatten_tokensFrom]
    exact From.start code
  exact halvesAt_between hfrom h

end Script.Scan

namespace Fragment

variable {f : Fragment} {halves : Script.Scan.Halves}

/-- The aliases of an iteration without the blanks around them. -/
theorem between_aliases (h : Script.Scan.splitIteration f.code = some halves) :
    Between f.code (f.part 0 halves.left).trimStart (Text.trim halves.left)
      ((f.part 0 halves.left).trimStart + byteLength (Text.trim halves.left)) := by
  obtain ⟨hleft, -⟩ := Script.Scan.splitIteration_between h
  have hin := hleft.inside (f.part 0 halves.left).between_trim
  rwa [Nat.zero_add, Nat.zero_add] at hin

/-- The aliases without the parentheses around them. -/
theorem between_innerAliases (h : Script.Scan.splitIteration f.code = some halves)
    {inner : List Char} (hinner : betweenParens? (Text.trim halves.left) = some inner) :
    Between f.code ((f.part 0 halves.left).trimStart + 1) inner
      ((f.part 0 halves.left).trimStart + 1 + byteLength inner) := by
  have hin := (between_aliases h).inside (betweenParens?_between hinner)
  rwa [← Nat.add_assoc] at hin

end Fragment
end TemplateSyntax
