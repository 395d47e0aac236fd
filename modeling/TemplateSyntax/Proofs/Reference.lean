import TemplateSyntax.Proofs.TokenStream

/-! # The text of character references

A character reference is made of ASCII characters, so that its text can be cut at any byte, and
none of them closes a value.  Here is also which texts the look-up of a name finds. -/

namespace TemplateSyntax

open Text (byteLength Between)

/-- The characters of character references. -/
def isReferenceChar (c : Char) : Bool := c == '&' || c == '#' || c == ';' || c.isAlphanum

section
variable {c : Char}

theorem isReferenceChar_of_isAlphanum (h : c.isAlphanum = true) : isReferenceChar c = true := by
  simp [isReferenceChar, h]

theorem isAlphanum_iff : c.isAlphanum = true ↔
    ((65 ≤ c.val ∧ c.val ≤ 90) ∨ (97 ≤ c.val ∧ c.val ≤ 122)) ∨ (48 ≤ c.val ∧ c.val ≤ 57) := by
  change ((decide (c.val ≥ 65 ∧ c.val ≤ 90) ||
    (decide (c.val ≥ 97) && decide (c.val ≤ 122))) ||
    (decide (c.val ≥ 48) && decide (c.val ≤ 57))) = true ↔ _
  simp only [Bool.or_eq_true, Bool.and_eq_true, decide_eq_true_eq, ge_iff_le]

theorem isAlphanum_of_isHexDigit (h : CharClass.isHexDigit c = true) : c.isAlphanum = true := by
  rw [isAlphanum_iff]
  simp only [CharClass.isHexDigit, Bool.or_eq_true, Bool.and_eq_true, decide_eq_true_eq,
    Char.le_def, Char.isDigit] at h
  rcases h with (h | h) | h
  · exact .inr h
  · exact .inl (.inr ⟨h.1, Nat.le_trans h.2 (by decide : ('f' : Char).val ≤ 'z'.val)⟩)
  · exact .inl (.inl ⟨h.1, Nat.le_trans h.2 (by decide : ('F' : Char).val ≤ 'Z'.val)⟩)

theorem isAlphanum_of_isDigit (h : c.isDigit = true) : c.isAlphanum = true := by
  simp [Char.isAlphanum, h]

theorem isReferenceChar_lt (h : isReferenceChar c = true) : c.toNat < 128 := by
  simp only [isReferenceChar, Bool.or_eq_true, beq_iff_eq] at h
  rcases h with ((rfl | rfl) | rfl) | h
  · decide
  · decide
  · decide
  · rcases isAlphanum_iff.1 h with (h | h) | h
    · exact Nat.lt_of_le_of_lt h.2 (by decide)
    · exact Nat.lt_of_le_of_lt h.2 (by decide)
    · exact Nat.lt_of_le_of_lt h.2 (by decide)

/-- The characters of references are not those that are special to values and lines. -/
theorem isReferenceChar_plain (h : isReferenceChar c = true) :
    c ≠ '\n' ∧ c ≠ '\r' ∧ isQuote c = false := by
  refine ⟨?_, ?_, ?_⟩
  · rintro rfl
    exact absurd h (by decide)
  · rintro rfl
    exact absurd h (by decide)
  · by_cases hq : isQuote c = true
    · simp only [isQuote, Bool.or_eq_true, beq_iff_eq] at hq
      rcases hq with rfl | rfl <;> exact absurd h (by decide)
    · simpa using hq

theorem isReferenceChar_utf8Size (h : isReferenceChar c = true) : c.utf8Size = 1 := by
  have hlt := isReferenceChar_lt h
  rw [Char.utf8Size_eq_one_iff]
  exact Nat.le_of_lt_succ hlt

end

/-- The text of a reference has as many bytes as characters. -/
theorem byteLength_of_isReferenceChar {raw : List Char}
    (h : ∀ c ∈ raw, isReferenceChar c = true) : byteLength raw = raw.length := by
  induction raw with
  | nil => rfl
  | cons c raw ih =>
    rw [Text.byteLength_cons, List.length_cons, ih fun d hd => h d (List.mem_cons_of_mem c hd),
      isReferenceChar_utf8Size (h c (List.mem_cons_self ..)), Nat.add_comm]

theorem digitValue_le {c : Char} (h : CharClass.isHexDigit c = true) :
    CharClass.digitValue c ≤ 15 := by
  simp only [CharClass.isHexDigit, CharClass.digitValue, Bool.or_eq_true, Bool.and_eq_true,
    decide_eq_true_eq, Char.le_def, UInt32.le_iff_toNat_le, Char.isDigit, ge_iff_le] at h ⊢
  change ((48 ≤ c.toNat ∧ c.toNat ≤ 57) ∨ (97 ≤ c.toNat ∧ c.toNat ≤ 102)) ∨
    (65 ≤ c.toNat ∧ c.toNat ≤ 70) at h
  have h0 : '0'.toNat = 48 := rfl
  have ha : 'a'.toNat = 97 := rfl
  have hA : 'A'.toNat = 65 := rfl
  split
  · next hd =>
    change 48 ≤ c.toNat ∧ c.toNat ≤ 57 at hd
    omega
  · next hd =>
    change ¬(48 ≤ c.toNat ∧ c.toNat ≤ 57) at hd
    split
    · next hl =>
      change 97 ≤ c.toNat ∧ c.toNat ≤ 102 at hl
      omega
    · next hl =>
      change ¬(97 ≤ c.toNat ∧ c.toNat ≤ 102) at hl
      omega

namespace NamedReference

variable {cs : List Char} {found : Found}

theorem lookup?_eq_some {word : List Char} {e : NamedReference} (h : lookup? word = some e) :
    e ∈ all ∧ e.name.toList = word :=
  ⟨List.mem_of_find?_eq_some h, by simpa using List.find?_some h⟩

/-- The search for a legacy name stops at one, and has passed none that is longer. -/
theorem longestLegacy?_eq_some {word : List Char} {n : Nat}
    (h : longestLegacy? word n = some found) :
    (∃ e ∈ all, e.legacy = true ∧ e.name.toList = word.take found.length ∧
      found = ⟨found.length, e.value, false⟩) ∧
    (2 ≤ found.length ∧ found.length ≤ n) ∧
    ∀ k, found.length < k → k ≤ n → ∀ e, lookup? (word.take k) = some e → e.legacy = false := by
  fun_induction longestLegacy? word n with
  | case1 shorter e hlookup =>
    obtain rfl := Option.some.inj h
    obtain ⟨hlookup, hlegacy⟩ := Option.filter_eq_some_iff.1 hlookup
    obtain ⟨hmem, hname⟩ := lookup?_eq_some hlookup
    refine ⟨⟨e, hmem, hlegacy, hname, rfl⟩, ⟨Nat.le_add_left .., Nat.le_refl _⟩, ?_⟩
    exact fun k hlt hle => absurd hle (Nat.not_le_of_lt hlt)
  | case2 shorter hlookup ih =>
    obtain ⟨hfound, ⟨hmin, hmax⟩, hlonger⟩ := ih h
    refine ⟨hfound, ⟨hmin, Nat.le_succ_of_le hmax⟩, fun k hlt hle e he => ?_⟩
    rcases Nat.lt_or_eq_of_le hle with hle | rfl
    · exact hlonger k hlt (Nat.le_of_lt_succ hle) e he
    · simpa using Option.filter_eq_none_iff.1 hlookup e he
  | case3 => exact nomatch h

theorem longestLegacy?_eq_none {word : List Char} {n : Nat} (h : longestLegacy? word n = none) :
    ∀ k, 2 ≤ k → k ≤ n → ∀ e, lookup? (word.take k) = some e → e.legacy = false := by
  fun_induction longestLegacy? word n with
  | case1 => exact nomatch h
  | case2 shorter hlookup ih =>
    intro k hmin hle e he
    rcases Nat.lt_or_eq_of_le hle with hle | rfl
    · exact ih h k hmin (Nat.le_of_lt_succ hle) e he
    · simpa using Option.filter_eq_none_iff.1 hlookup e he
  | case3 n hn =>
    intro k hmin hle
    exact absurd (Nat.le_trans hmin hle) fun h2 => hn (n - 2) (by omega)

theorem isReferenceChar_of_mem_run {c : Char} (h : c ∈ run cs) : isReferenceChar c = true :=
  isReferenceChar_of_isAlphanum (List.all_eq_true.1 List.all_takeWhile c h)

theorem run_append_drop (cs : List Char) : run cs ++ cs.drop (run cs).length = cs :=
  List.prefix_iff_eq_append.1 (List.takeWhile_prefix _)

/-- The name that is found is the whole word with its semicolon, or one at the start of the word. -/
theorem match?_cases (h : match? cs = some found) :
    (∃ e, lookup? (run cs) = some e ∧ (cs.drop (run cs).length).head? = some ';' ∧
      found = ⟨(run cs).length + 1, e.value, true⟩) ∨
    longestLegacy? (run cs) (min (run cs).length maxLength) = some found := by
  unfold match? at h
  dsimp only at h
  split at h
  · exact nomatch h
  split at h
  · next e he =>
    rw [Option.ite_none_right_eq_some, Bool.and_eq_true, beq_iff_eq] at he
    exact .inl ⟨e, he.2, he.1.2, (Option.some.inj h).symm⟩
  · exact .inr h

/-- What is found at the start of a text is a reference that stands there. -/
theorem match?_eq_some (h : match? cs = some found) :
    ∃ raw tail, cs = raw ++ tail ∧ raw.length = found.length ∧ raw ≠ [] ∧
      (∀ c ∈ raw, isReferenceChar c = true) ∧
      IsReference ('&' :: raw) found.value.toList := by
  have hrun := run_append_drop cs
  rcases match?_cases h with ⟨e, hlookup, hsemicolon, rfl⟩ | hlegacy
  · obtain ⟨hmem, hname⟩ := lookup?_eq_some hlookup
    obtain ⟨tail, ht⟩ := List.head?_eq_some_iff.1 hsemicolon
    refine ⟨run cs ++ [';'], tail, ?_, by simp, by simp, ?_, ?_⟩
    · rw [List.append_assoc, List.singleton_append, ← ht, hrun]
    · intro c hc
      rcases List.mem_append.1 hc with hc | hc
      · exact isReferenceChar_of_mem_run hc
      · obtain rfl := List.mem_singleton.1 hc
        decide
    · rw [← hname]
      exact .terminated hmem
  · obtain ⟨⟨e, hmem, hlegacy, hname, hfound⟩, ⟨hmin, hmax⟩, -⟩ := longestLegacy?_eq_some hlegacy
    have hlength : ((run cs).take found.length).length = found.length :=
      List.length_take_of_le (Nat.le_trans hmax (Nat.min_le_left ..))
    refine ⟨(run cs).take found.length, (run cs).drop found.length ++ cs.drop (run cs).length,
      ?_, hlength, ?_, ?_, ?_⟩
    · rw [← List.append_assoc, List.take_append_drop, hrun]
    · intro hnil
      rw [hnil] at hlength
      exact absurd (hlength ▸ hmin) (by decide)
    · exact fun c hc => isReferenceChar_of_mem_run (List.mem_of_mem_take hc)
    · rw [← hname, hfound]
      exact .legacy hmem hlegacy

end NamedReference
end TemplateSyntax
