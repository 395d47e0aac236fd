import TemplateSyntax.Proofs.Printed

/-! # Where raw text ends

The rule for the end of raw text is a search, as that for comments is: raw text goes up to the first end
tag of its own name, and to the end of the text if there is none.  `EndTagStarts` says where such an end
tag is, and `RawTextEnds` is the search. -/

namespace TemplateSyntax

open CharClass (isBlank)
open Text (sameLetters)

/-- The characters that the name of an end tag may end at. -/
def endsTagName (c : Char) : Bool := isBlank c || c == '/' || c == '>'

/-- The text starts with an end tag of this name: `</`, the name in letters of any case, and a blank,
`/` or `>`. -/
def EndTagStarts (name : String) (r : List Char) : Prop :=
  ∃ w c rest, r = '<' :: '/' :: (w ++ c :: rest) ∧ sameLetters (String.ofList w) name = true ∧
    endsTagName c = true

/-- Raw text ends in front of the first end tag of its name, or at the end of the text. -/
structure RawTextEnds (name : String) (r : List Char) (p : Nat) : Prop where
  first : ∀ q < p, ¬ EndTagStarts name (r.drop q)
  here : EndTagStarts name (r.drop p) ∨ p = r.length

/-- A name of small ASCII letters. -/
def IsWord (name : String) : Prop := name ≠ "" ∧ ∀ c ∈ name.toList, c.isLower = true

variable {name : String} {r rest front w : List Char} {c : Char} {p q : Nat}

theorem isAlpha_of_endsTagName (h : endsTagName c = true) : c.isAlpha = false := by
  simp only [endsTagName, isBlank, Bool.or_eq_true, beq_iff_eq] at h
  rcases h with (((((rfl | rfl) | rfl) | rfl) | rfl) | rfl) | rfl <;> decide

theorem isAlpha_of_toLower (h : c.toLower.isLower = true) : c.isAlpha = true := by
  unfold Char.isAlpha
  by_cases hupper : c.isUpper = true
  · rw [hupper, Bool.true_or]
  · have hsame : c.toLower = c := dif_neg fun hletter => hupper (decide_eq_true hletter)
    rw [← hsame, h, Bool.or_true]

/-- The spellings of a name differ in the case of its letters. -/
theorem map_toLower_of_sameLetters (hname : IsWord name)
    (h : sameLetters (String.ofList w) name = true) : w.map Char.toLower = name.toList := by
  have heq : (String.ofList w).toLower = name.toLower := by simpa [sameLetters] using h
  have hmap : w.map Char.toLower = name.toList.map Char.toLower := by
    rw [← String.toList_ofList (l := w)]
    exact String.toList_map.symm.trans ((congrArg String.toList heq).trans String.toList_map)
  rw [hmap]
  refine (List.map_congr_left fun c hc => ?_).trans (List.map_id _)
  exact Forest.toLower_of_isNameChar (Forest.isNameChar_of_isLower (hname.2 c hc))

theorem isAlpha_of_sameLetters (hname : IsWord name)
    (h : sameLetters (String.ofList w) name = true) : ∀ c ∈ w, c.isAlpha = true := by
  intro c hc
  have hmem : c.toLower ∈ w.map Char.toLower := List.mem_map_of_mem hc
  rw [map_toLower_of_sameLetters hname h] at hmem
  exact isAlpha_of_toLower (hname.2 _ hmem)

theorem ne_nil_of_sameLetters (hname : IsWord name)
    (h : sameLetters (String.ofList w) name = true) : w ≠ [] := by
  rintro rfl
  exact hname.1 (String.toList_inj.1 (map_toLower_of_sameLetters hname h).symm)

/-- Letters in front of something else are those that are taken as the name. -/
theorem takeWhile_letters (hw : ∀ c ∈ w, c.isAlpha = true)
    (hr : ∀ c ∈ r.head?, c.isAlpha = false) : (w ++ r).takeWhile Char.isAlpha = w := by
  rw [List.takeWhile_append_of_pos hw]
  cases r with
  | nil => exact List.append_nil w
  | cons c rest =>
    rw [List.takeWhile_cons_of_neg (by simp [hr c rfl])]
    exact List.append_nil w

/-- Behind `</` and letters that go no further there is an end tag, or there is none. -/
theorem endTagStarts_iff (hname : IsWord name) (hw : ∀ c ∈ w, c.isAlpha = true)
    (hr : ∀ c ∈ r.head?, c.isAlpha = false) :
    EndTagStarts name ('<' :: '/' :: (w ++ r)) ↔
      sameLetters (String.ofList w) name = true ∧ ∃ c ∈ r.head?, endsTagName c = true := by
  refine ⟨?_, ?_⟩
  · rintro ⟨w', c, rest, heq, hsame, hc⟩
    simp only [List.cons.injEq, true_and] at heq
    have hwords : w = w' := by
      rw [← takeWhile_letters hw hr, heq]
      refine takeWhile_letters (isAlpha_of_sameLetters hname hsame) fun d hd => ?_
      obtain rfl := Option.some.inj hd
      exact isAlpha_of_endsTagName hc
    subst hwords
    obtain rfl := List.append_cancel_left heq
    exact ⟨hsame, c, rfl, hc⟩
  · rintro ⟨hsame, c, hc, hends⟩
    obtain ⟨rest, rfl⟩ := List.head?_eq_some_iff.1 hc
    exact ⟨w, c, rest, rfl, hsame, hends⟩

theorem EndTagStarts.eq_cons (h : EndTagStarts name r) : ∃ rest, r = '<' :: '/' :: rest := by
  obtain ⟨w, c, rest, rfl, -⟩ := h
  exact ⟨_, rfl⟩

namespace RawTextEnds

theorem atEndTag (h : EndTagStarts name r) : RawTextEnds name r 0 :=
  ⟨fun q hq => absurd hq (Nat.not_lt_zero q), .inl h⟩

theorem atEnd : RawTextEnds name [] 0 := ⟨fun q hq => absurd hq (Nat.not_lt_zero q), .inr rfl⟩

/-- A character that no end tag starts with. -/
theorem cons (h : RawTextEnds name rest p) (hno : ¬ EndTagStarts name (c :: rest)) :
    RawTextEnds name (c :: rest) (p + 1) := by
  refine ⟨fun q hq => ?_, h.here.imp_right (congrArg Nat.succ)⟩
  cases q with
  | zero => exact hno
  | succ q => exact h.first q (Nat.lt_of_succ_lt_succ hq)

theorem cons_of_ne (h : RawTextEnds name rest p) (hc : c ≠ '<') :
    RawTextEnds name (c :: rest) (p + 1) := by
  refine h.cons fun hstarts => ?_
  obtain ⟨tail, heq⟩ := hstarts.eq_cons
  exact hc (List.cons.inj heq).1

theorem append (h : RawTextEnds name rest p) (hfront : ∀ c ∈ front, c ≠ '<') :
    RawTextEnds name (front ++ rest) (front.length + p) := by
  induction front with
  | nil => rwa [List.length_nil, Nat.zero_add]
  | cons c front ih =>
    have htail := ih fun d hd => hfront d (List.mem_cons_of_mem c hd)
    rw [List.length_cons, Nat.add_right_comm]
    exact htail.cons_of_ne (hfront c (List.mem_cons_self ..))

theorem le_length (h : RawTextEnds name r p) : p ≤ r.length := by
  rcases h.here with ⟨w, c, rest, heq, -⟩ | rfl
  · have hlength := congrArg List.length heq
    simp only [List.length_drop, List.length_cons] at hlength
    omega
  · exact Nat.le_refl _

end RawTextEnds
end TemplateSyntax
