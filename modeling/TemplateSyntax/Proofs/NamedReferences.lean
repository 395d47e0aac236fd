import Mathlib.Data.List.Nodup
import Mathlib.Data.List.Lex
import TemplateSyntax.Proofs.Reference

/-! # The longest name

A reference behind `&` is written as a name of the table with a semicolon, or as a legacy name alone.
Of those that a text starts with, the longest is found.  That this is so depends on the table as a
whole: names are made of letters and digits, so that only the whole run of these may be closed by a
semicolon, no name is longer than the search goes, and none is there twice. -/

namespace TemplateSyntax

namespace NamedReference

open Text (byteLength)

variable {cs raw : List Char} {e e' : NamedReference} {value : String} {terminated : Bool}

/-! ## The table

What holds of all names is found by running through the table.  It is the bytes of the names that
are looked at, as the characters of a string have to be decoded from them. -/

/-- The bytes of a name. -/
def codes (e : NamedReference) : List Nat := e.name.toByteArray.data.toList.map UInt8.toNat

def isAlphanumCode (b : Nat) : Bool :=
  (Nat.ble 65 b && Nat.ble b 90) || (Nat.ble 97 b && Nat.ble b 122) || (Nat.ble 48 b && Nat.ble b 57)

theorem codes_all_isAlphanum : all.all (fun e => e.codes.all isAlphanumCode) = true := by
  decide +kernel

theorem size_all_between :
    all.all (fun e => Nat.ble (if e.legacy then 2 else 1) e.name.utf8ByteSize &&
      Nat.ble e.name.utf8ByteSize maxLength) = true := by
  decide +kernel

theorem codes_all_ascending :
    (all.zip all.tail).all (fun p => p.1.codes.lex p.2.codes fun a b => decide (a < b)) = true := by
  decide +kernel

/-- Only the letters and digits are encoded by bytes that are theirs. -/
theorem isAlphanum_of_bytes {c : Char}
    (h : ∀ b ∈ String.utf8EncodeChar c, isAlphanumCode b.toNat = true) : c.isAlphanum = true := by
  have hbound {b : Nat} (hb : isAlphanumCode b = true) :
      (65 ≤ b ∧ b ≤ 90) ∨ (97 ≤ b ∧ b ≤ 122) ∨ (48 ≤ b ∧ b ≤ 57) := by
    simpa [isAlphanumCode, or_assoc] using hb
  unfold String.utf8EncodeChar at h
  dsimp only at h
  split at h
  · next hv =>
    have hc := hbound (h _ (List.mem_singleton_self _))
    rw [UInt8.toNat_ofNat_of_lt' (Nat.lt_succ_of_le (Nat.le_trans hv (by decide)))] at hc
    rw [isAlphanum_iff]
    simp only [UInt32.le_iff_toNat_le, UInt32.reduceToNat]
    omega
  all_goals
    -- A longer encoding starts with a byte that is above the letters.
    exfalso
    repeat' split at h
    all_goals
      have hc := hbound (h _ (List.mem_cons_self ..))
      rw [UInt8.toNat_ofNat_of_lt' (by change _ < 256; omega)] at hc
      omega

theorem name_isAlphanum (he : e ∈ all) : ∀ c ∈ e.name.toList, c.isAlphanum = true := by
  intro c hc
  refine isAlphanum_of_bytes fun b hb => ?_
  refine List.all_eq_true.1 (List.all_eq_true.1 codes_all_isAlphanum e he) b.toNat ?_
  rw [codes, ← String.utf8Encode_toList, List.utf8Encode, List.toList_data_toByteArray]
  exact List.mem_map_of_mem (List.mem_flatMap_of_mem hc hb)

theorem name_length (he : e ∈ all) : e.name.toList.length = e.name.utf8ByteSize := by
  rw [← Text.byteLength_toList, byteLength_of_isReferenceChar]
  exact fun c hc => isReferenceChar_of_isAlphanum (name_isAlphanum he c hc)

theorem name_length_between (he : e ∈ all) :
    (if e.legacy then 2 else 1) ≤ e.name.toList.length ∧ e.name.toList.length ≤ maxLength := by
  rw [name_length he]
  simpa using List.all_eq_true.1 size_all_between e he

theorem codes_pairwise : (all.map codes).Pairwise (· < ·) := by
  refine List.isChain_iff_pairwise.1 (List.isChain_iff_getElem.2 fun i hi => ?_)
  rw [List.length_map] at hi
  have hmem := List.getElem_mem (l := all.zip all.tail) (n := i) (by
    rw [List.length_zip, List.length_tail]
    omega)
  have hlex := List.all_eq_true.1 codes_all_ascending _ hmem
  simpa [List.getElem_tail] using List.lex_eq_true_iff_lt.1 hlex

theorem eq_of_name_eq (he : e ∈ all) (he' : e' ∈ all) (h : e.name.toList = e'.name.toList) :
    e = e' :=
  List.inj_on_of_nodup_map (codes_pairwise.imp fun hlt => ne_of_lt hlt) he he'
    (by rw [codes, codes, String.ext h])

theorem lookup?_name (he : e ∈ all) : lookup? e.name.toList = some e := by
  cases h : lookup? e.name.toList with
  | none => simpa using List.find?_eq_none.1 h e he
  | some e' =>
    obtain ⟨he', hname⟩ := lookup?_eq_some h
    rw [eq_of_name_eq he' he hname]

/-! ## What may be written -/

/-- How names are written behind `&`, with the text they stand for and whether they are closed. -/
inductive Written : List Char → String → Bool → Prop
  | terminated {e : NamedReference} (he : e ∈ all) : Written (e.name.toList ++ [';']) e.value true
  | bare {e : NamedReference} (he : e ∈ all) (hlegacy : e.legacy = true) :
    Written e.name.toList e.value false

/-- The longest of the names written at the start of a text, or that there is none. -/
def IsAnswer (cs : List Char) : Option Found → Prop
  | some found =>
    ∃ raw, raw <+: cs ∧ raw.length = found.length ∧ Written raw found.value found.terminated ∧
      ∀ raw' value' terminated', raw' <+: cs → Written raw' value' terminated' →
        raw'.length ≤ raw.length
  | none => ∀ raw value terminated, raw <+: cs → ¬Written raw value terminated

theorem name_prefix_run (he : e ∈ all) (h : e.name.toList <+: cs) : e.name.toList <+: run cs := by
  obtain ⟨tail, rfl⟩ := h
  exact ⟨_, (List.takeWhile_append_of_pos (name_isAlphanum he)).symm⟩

/-- A semicolon closes the whole run. -/
theorem run_of_closed_name (he : e ∈ all) (h : e.name.toList ++ [';'] <+: cs) :
    run cs = e.name.toList ∧ (cs.drop e.name.toList.length).head? = some ';' := by
  obtain ⟨tail, rfl⟩ := h
  rw [List.append_assoc]
  refine ⟨?_, by rw [List.drop_left]; rfl⟩
  rw [run, List.takeWhile_append_of_pos (name_isAlphanum he), List.singleton_append,
    List.takeWhile_cons_of_neg (by decide), List.append_nil]

theorem match?_of_closed_name (he : e ∈ all) (h : e.name.toList ++ [';'] <+: cs) :
    match? cs = some ⟨e.name.toList.length + 1, e.value, true⟩ := by
  obtain ⟨hrun, hsemicolon⟩ := run_of_closed_name he h
  obtain ⟨hmin, hmax⟩ := name_length_between he
  have hne : e.name.toList.isEmpty = false := by
    rw [List.isEmpty_eq_false_iff, ← List.length_pos_iff]
    exact Nat.lt_of_lt_of_le (by split <;> decide) hmin
  simp [match?, hrun, hne, hmax, hsemicolon, lookup?_name he]

theorem match?_of_no_closed_name (h : ∀ e ∈ all, ¬e.name.toList ++ [';'] <+: cs) :
    match? cs = longestLegacy? (run cs) (min (run cs).length maxLength) := by
  unfold match?
  dsimp only
  split
  · next hnil =>
    rw [List.isEmpty_iff.1 hnil]
    rfl
  split
  · next e he =>
    rw [Option.ite_none_right_eq_some, Bool.and_eq_true, beq_iff_eq] at he
    obtain ⟨hmem, hname⟩ := lookup?_eq_some he.2
    obtain ⟨tail, htail⟩ := List.head?_eq_some_iff.1 he.1.2
    refine absurd ⟨tail, ?_⟩ (h e hmem)
    rw [hname, List.append_assoc, List.singleton_append, ← htail, run_append_drop]
  · rfl

/-- Without a closing semicolon the names that are written are those the search goes through. -/
theorem written_of_no_closed_name (h : ∀ e ∈ all, ¬e.name.toList ++ [';'] <+: cs)
    (hstart : raw <+: cs) (hraw : Written raw value terminated) :
    2 ≤ raw.length ∧ raw.length ≤ min (run cs).length maxLength ∧
      ∃ e, lookup? ((run cs).take raw.length) = some e ∧ e.legacy = true := by
  cases hraw with
  | terminated he => exact absurd hstart (h _ he)
  | @bare e he hlegacy =>
    obtain ⟨hmin, hmax⟩ := name_length_between he
    rw [if_pos hlegacy] at hmin
    have hrun := name_prefix_run he hstart
    refine ⟨hmin, Nat.le_min.2 ⟨hrun.length_le, hmax⟩, e, ?_, hlegacy⟩
    rw [← List.prefix_iff_eq_take.1 hrun, lookup?_name he]

/-- Nothing is longer than a name with a semicolon: it takes the whole run. -/
theorem isAnswer_of_closed_name (he : e ∈ all) (h : e.name.toList ++ [';'] <+: cs) :
    IsAnswer cs (some ⟨e.name.toList.length + 1, e.value, true⟩) := by
  have hrun := (run_of_closed_name he h).1
  refine ⟨_, h, by simp, .terminated he, ?_⟩
  intro raw' value' terminated' hstart' hraw'
  rw [List.length_append]
  cases hraw' with
  | terminated he' =>
    rw [List.length_append, ← hrun, ← (run_of_closed_name he' hstart').1]
  | bare he' _ =>
    have hle := (name_prefix_run he' hstart').length_le
    rw [hrun] at hle
    exact Nat.le_succ_of_le hle

/-- The search goes from the longest name down to the shortest. -/
theorem isAnswer_of_no_closed_name (h : ∀ e ∈ all, ¬e.name.toList ++ [';'] <+: cs) :
    IsAnswer cs (longestLegacy? (run cs) (min (run cs).length maxLength)) := by
  cases hfound : longestLegacy? (run cs) (min (run cs).length maxLength) with
  | none =>
    intro raw value terminated hstart hraw
    obtain ⟨hmin, hmax, e, he, hlegacy⟩ := written_of_no_closed_name h hstart hraw
    exact absurd hlegacy (by simp [longestLegacy?_eq_none hfound _ hmin hmax e he])
  | some found =>
    obtain ⟨⟨e, he, hlegacy, hname, hvalue⟩, ⟨-, hmax⟩, hlonger⟩ := longestLegacy?_eq_some hfound
    have hlength : e.name.toList.length = found.length := by
      rw [hname, List.length_take_of_le (Nat.le_trans hmax (Nat.min_le_left ..))]
    refine ⟨e.name.toList, ?_, hlength, ?_, ?_⟩
    · rw [hname]
      exact (List.take_prefix ..).trans (List.takeWhile_prefix _)
    · rw [hvalue]
      exact .bare he hlegacy
    · intro raw' value' terminated' hstart' hraw'
      obtain ⟨-, hmax', e', he', hlegacy'⟩ := written_of_no_closed_name h hstart' hraw'
      by_contra hlt
      rw [hlength, Nat.not_le] at hlt
      exact absurd hlegacy' (by simp [hlonger _ hlt hmax' e' he'])

theorem match?_isAnswer (cs : List Char) : IsAnswer cs (match? cs) := by
  by_cases hclosed : ∃ e ∈ all, e.name.toList ++ [';'] <+: cs
  · obtain ⟨e, he, hstart⟩ := hclosed
    rw [match?_of_closed_name he hstart]
    exact isAnswer_of_closed_name he hstart
  · simp only [not_exists, not_and] at hclosed
    rw [match?_of_no_closed_name hclosed]
    exact isAnswer_of_no_closed_name hclosed

/-- A text is written in one way only, as no name has a semicolon in it. -/
theorem Written.unique {value' : String} {terminated' : Bool}
    (h : Written raw value terminated) (h' : Written raw value' terminated') :
    value = value' ∧ terminated = terminated' := by
  have hopen {e : NamedReference} (he : e ∈ all) : ';' ∉ e.name.toList := fun hc =>
    absurd (name_isAlphanum he _ hc) (by decide)
  cases h with
  | @terminated e he =>
    generalize hraw : e.name.toList ++ [';'] = raw at h'
    cases h' with
    | terminated he' =>
      rw [eq_of_name_eq he he' (List.append_cancel_right hraw)]
      exact ⟨rfl, rfl⟩
    | bare he' _ =>
      exact absurd (hraw ▸ List.mem_append_right _ (List.mem_singleton_self _)) (hopen he')
  | @bare e he _ =>
    generalize hraw : e.name.toList = raw at h'
    cases h' with
    | terminated he' =>
      exact absurd (hraw ▸ List.mem_append_right _ (List.mem_singleton_self _)) (hopen he)
    | bare he' _ =>
      rw [eq_of_name_eq he he' hraw]
      exact ⟨rfl, rfl⟩

theorem IsAnswer.unique {answer answer' : Option Found} (h : IsAnswer cs answer)
    (h' : IsAnswer cs answer') : answer = answer' := by
  match answer, answer', h, h' with
  | none, none, _, _ => rfl
  | none, some _, h, ⟨_, hstart, _, hraw, _⟩ => exact absurd hraw (h _ _ _ hstart)
  | some _, none, ⟨_, hstart, _, hraw, _⟩, h => exact absurd hraw (h _ _ _ hstart)
  | some ⟨_, _, _⟩, some ⟨_, _, _⟩, ⟨raw, hstart, hlength, hraw, hlongest⟩,
      ⟨raw', hstart', hlength', hraw', hlongest'⟩ =>
    have hsame : raw.length = raw'.length :=
      Nat.le_antisymm (hlongest' _ _ _ hstart hraw) (hlongest _ _ _ hstart' hraw')
    obtain rfl : raw = raw' :=
      (List.prefix_of_prefix_length_le hstart hstart' hsame.le).eq_of_length hsame
    obtain ⟨rfl, rfl⟩ := hraw.unique hraw'
    dsimp only at hlength hlength' ⊢
    rw [← hlength, ← hlength']

/-- What is written at the start of a text is in the run and its semicolon. -/
theorem Written.prefix_run (h : Written raw value terminated) (hstart : raw <+: cs) :
    raw <+: run cs ++ [';'] := by
  cases h with
  | terminated he =>
    exact (run_of_closed_name he hstart).1 ▸ List.prefix_refl _
  | bare he _ => exact (name_prefix_run he hstart).trans (List.prefix_append ..)

theorem Written.byteLength_eq (h : Written raw value terminated) :
    byteLength raw = raw.length := by
  refine byteLength_of_isReferenceChar fun c hc => ?_
  cases h with
  | terminated he =>
    rcases List.mem_append.1 hc with hc | hc
    · exact isReferenceChar_of_isAlphanum (name_isAlphanum he c hc)
    · obtain rfl := List.mem_singleton.1 hc
      decide
  | bare he _ => exact isReferenceChar_of_isAlphanum (name_isAlphanum he c hc)

/-- Of the names written at the start of a text the longest is found, and nothing is found if and
only if there is none.  What is found ends with the run of letters and digits or the semicolon
behind it, and is as long in bytes as it is in characters. -/
theorem match?_longest (cs : List Char) (answer : Option Found) :
    (match? cs = answer ↔ IsAnswer cs answer) ∧
    ∀ found ∈ match? cs,
      cs.take found.length <+: run cs ++ [';'] ∧ byteLength (cs.take found.length) = found.length := by
  have hanswer := match?_isAnswer cs
  refine ⟨⟨fun h => h ▸ hanswer, hanswer.unique⟩, fun found hfound => ?_⟩
  rw [hfound] at hanswer
  obtain ⟨raw, hstart, hlength, hraw, -⟩ := hanswer
  rw [← hlength, ← List.prefix_iff_eq_take.1 hstart]
  exact ⟨hraw.prefix_run hstart, hraw.byteLength_eq⟩

example : match? "AMP=".toList = some ⟨3, "&", false⟩ ∧
    match? "AMP;".toList = some ⟨4, "&", true⟩ := by decide +kernel

end NamedReference
end TemplateSyntax
