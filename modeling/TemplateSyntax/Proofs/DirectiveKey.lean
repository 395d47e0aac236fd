import Mathlib.Data.List.Basic
import TemplateSyntax.Directive.Key
import TemplateSyntax.Proofs.Position

/-! # The parts of keys

Taking a name apart never fails: each modifier that is looked at starts with a dot, and a bracket is
open wherever the search for the closing bracket of an argument meets one.  A dynamic argument stands
in the name with its brackets, at its byte index. -/

namespace TemplateSyntax
namespace KeyTail

/-- What follows the characters of a modifier is a dot or nothing. -/
theorem head?_dropWhile_isInner {c : Char} {cs : List Char}
    (h : (cs.dropWhile isInner).head? = some c) : c = '.' := by
  have hnot := List.head?_dropWhile_not isInner cs
  rw [h] at hnot
  simpa [isInner] using hnot

/-- Modifiers are only looked for at a dot, or at the end of the name. -/
theorem modifiersFrom_noBreach (start : Nat) (cs : List Char)
    (h : ∀ c, cs.head? = some c → c = '.') : (modifiersFrom start cs).breaches = [] := by
  fun_induction modifiersFrom start cs with
  | case1 => rfl
  | case2 start c cs text more more' hempty ih | case3 start c cs text more more' hempty ih =>
    obtain rfl : c = '.' := h c rfl
    exact ih fun d hd => head?_dropWhile_isInner hd

/-- The search stops at the bracket that closes the first one, so that one is open before. -/
theorem isNested_of_pos (depth : Nat) (cs : List Char) (h : 0 < depth) : isNested depth cs = true := by
  induction cs generalizing depth with
  | nil => rfl
  | cons c cs ih =>
    rw [isNested]
    by_cases hc : c = ']'
    · subst hc
      have hdepth : depthAfter depth ']' = depth - 1 := rfl
      rw [hdepth]
      by_cases h1 : depth = 1
      · subst h1
        rfl
      · rw [ih (depth - 1) (by omega)]
        simp
        omega
    · have hpos : 0 < depthAfter depth c := by
        unfold depthAfter
        split
        · exact Nat.succ_pos _
        · split
          · next h1 => simp [hc] at h1
          · exact h
      rw [ih _ hpos]
      simp [hc]

theorem ofArgument_noBreach (start : Nat) (cs : List Char) : (ofArgument start cs).breaches = [] := by
  unfold ofArgument
  split
  · next hhead =>
    obtain ⟨cs, rfl⟩ := List.head?_eq_some_iff.1 (by simpa using hhead)
    have hnested : isNested 0 ('[' :: cs) = true := by
      have := isNested_of_pos 1 cs Nat.one_pos
      simpa [isNested, depthAfter] using this
    dsimp only
    rw [hnested]
    split
    · rfl
    · exact modifiersFrom_noBreach _ _ fun c hc => head?_dropWhile_isInner hc
  · dsimp only
    split
    · exact modifiersFrom_noBreach _ _ fun c hc => head?_dropWhile_isInner hc
    · exact modifiersFrom_noBreach _ _ fun c hc => head?_dropWhile_isInner hc

end KeyTail

namespace KeyParts

/-- The name in `v-` and a name goes up to a colon, a dot or the end. -/
theorem head?_dropWhile_isNamePart {c : Char} {cs : List Char}
    (h : (cs.dropWhile isNamePart).head? = some c) : c = ':' ∨ c = '.' := by
  have hnot := List.head?_dropWhile_not isNamePart cs
  rw [h] at hnot
  simpa [isNamePart, Classical.or_iff_not_imp_left] using hnot

/-- The signs of directives are ASCII. -/
theorem ofSign?_size {c : Char} {name : String} (h : ofSign? c = some name) : c.utf8Size = 1 := by
  unfold ofSign? at h
  have hc : c = ':' ∨ c = '.' ∨ c = '@' ∨ c = '#' := by grind
  rcases hc with rfl | rfl | rfl | rfl <;> rfl

theorem ofLongName_noBreach (cs : List Char) : (ofLongName cs).tail.breaches = [] := by
  unfold ofLongName
  dsimp only
  split
  · exact KeyTail.ofArgument_noBreach _ _
  · next hcolon =>
    refine KeyTail.modifiersFrom_noBreach _ _ fun c hc => ?_
    rcases head?_dropWhile_isNamePart hc with rfl | rfl
    · obtain ⟨rest, hrest⟩ := List.head?_eq_some_iff.1 hc
      exact absurd hrest (hcolon rest)
    · rfl

/-- A name is taken apart without a breach. -/
theorem ofName_noBreach (cs : List Char) : (ofName cs).tail.breaches = [] := by
  unfold ofName
  split
  · exact ofLongName_noBreach _
  · split
    · exact KeyTail.ofArgument_noBreach _ _
    · rfl
  · rfl

end KeyParts

/-! ## Dynamic arguments -/

namespace KeyTail

theorem modifiersFrom_argument (start : Nat) (cs : List Char) :
    (modifiersFrom start cs).argument = none := by
  fun_induction modifiersFrom start cs with
  | case1 => rfl
  | case2 start c cs text more more' hempty ih | case3 start c cs text more more' hempty ih =>
    exact ih

/-- An argument in brackets is what the text starts with. -/
theorem ofArgument_dynamic {start : Nat} {cs : List Char} {p : KeyPiece}
    (h : (ofArgument start cs).argument = some (.dynamic p)) :
    p.start = start ∧ ∃ code back, cs = '[' :: (code ++ ']' :: back) ∧
      p.text = '[' :: (code ++ [']']) := by
  unfold ofArgument at h
  by_cases hopen : cs.head? = some '['
  · rw [if_pos (by simpa using hopen)] at h
    dsimp only at h
    split at h
    · simp at h
    · next text rest hsplit =>
      obtain rfl := ArgumentPiece.dynamic.inj (Option.some.inj h)
      obtain ⟨rfl, hlast⟩ := splitBrackets?_eq_some hsplit
      cases text with
      | nil => simp at hlast
      | cons c text =>
        obtain rfl : c = '[' := by simpa using hopen
        have hne : text ≠ [] := by
          rintro rfl
          simp at hlast
        have htext : text.dropLast ++ [']'] = text := by
          rw [List.getLast?_cons_of_ne_nil hne] at hlast
          exact List.dropLast_append_getLast? _ hlast
        refine ⟨rfl, text.dropLast, rest, ?_, ?_⟩
        · conv => lhs; rw [← htext]
          simp
        · rw [htext]
  · rw [if_neg (by simpa using hopen)] at h
    dsimp only at h
    split at h
    · simp [modifiersFrom_argument] at h
    · simp at h

end KeyTail

namespace KeyParts

open Text (byteLength)

/-- A dynamic argument stands in the name, from its bracket on. -/
theorem ofName_dynamic {cs : List Char} {p : KeyPiece}
    (h : (ofName cs).tail.argument = some (.dynamic p)) :
    ∃ front code back, cs = front ++ '[' :: (code ++ ']' :: back) ∧
      byteLength front = p.start ∧ p.text = '[' :: (code ++ [']']) := by
  unfold ofName at h
  split at h
  · next rest =>
    unfold ofLongName at h
    dsimp only at h
    split at h
    · next back hback =>
      obtain ⟨hstart, code, back', rfl, htext⟩ := KeyTail.ofArgument_dynamic h
      refine ⟨'v' :: '-' :: (rest.takeWhile isNamePart ++ [':']), code, back', ?_, ?_, htext⟩
      · conv => lhs; rw [← List.takeWhile_append_dropWhile (p := isNamePart) (l := rest), hback]
        simp
      · rw [hstart]
        simp only [Text.byteLength_cons, Text.byteLength_append, Text.byteLength_nil, KeyPiece.stop]
        have hv : 'v'.utf8Size = 1 := rfl
        have hdash : '-'.utf8Size = 1 := rfl
        have hcolon : ':'.utf8Size = 1 := rfl
        omega
    · simp [KeyTail.modifiersFrom_argument] at h
  · next c rest _ =>
    split at h
    · next name hsign =>
      obtain ⟨hstart, code, back, rfl, htext⟩ := KeyTail.ofArgument_dynamic h
      refine ⟨[c], code, back, rfl, ?_, htext⟩
      rw [hstart, Text.byteLength_cons, ofSign?_size hsign, Text.byteLength_nil]
    · simp at h
  · simp at h

end KeyParts

/-! ## Pieces -/

open Text (byteLength Between From)

/-- The piece is what stands in the name at its byte index. -/
def KeyPiece.StandsIn (p : KeyPiece) (name : List Char) : Prop := Between name p.start p.text p.stop

/-- The pieces stand in the name, and the faults are at its byte indices. -/
structure KeyTail.StandsIn (t : KeyTail) (name : List Char) : Prop where
  fixed : ∀ p, t.argument = some (.fixed p) → p.StandsIn name
  dynamic : ∀ p, t.argument = some (.dynamic p) → p.StandsIn name
  modifiers : ∀ p ∈ t.modifiers, p.StandsIn name
  faults : ∀ x ∈ t.faults, x.1 ≤ byteLength name

namespace KeyTail

variable {name cs : List Char} {start : Nat}

/-- The text at an index is cut where a run of characters ends. -/
theorem from_takeWhile (h : From name start cs) (p : Char → Bool) :
    From name start (cs.takeWhile p ++ cs.dropWhile p) := by
  rwa [List.takeWhile_append_dropWhile]

theorem modifiersFrom_standsIn (hfrom : From name start cs)
    (h : ∀ c, cs.head? = some c → c = '.') : (modifiersFrom start cs).StandsIn name := by
  fun_induction modifiersFrom start cs with
  | case1 => exact ⟨nofun, nofun, by simp, by simp⟩
  | case2 start c cs text more more' hempty ih | case3 start c cs text more more' hempty ih =>
    obtain rfl : c = '.' := h c rfl
    have htext : From name (start + 1) (text ++ cs.dropWhile isInner) :=
      from_takeWhile (show From name (start + 1) cs from hfrom.cons) isInner
    have hmore := ih htext.append fun d hd => head?_dropWhile_isInner hd
    refine ⟨hmore.fixed, hmore.dynamic, ?_, ?_⟩
    · first
      | exact hmore.modifiers
      | exact List.forall_mem_cons.2 ⟨htext.between, hmore.modifiers⟩
    · first
      | exact hmore.faults
      | exact List.forall_mem_cons.2 ⟨hfrom.le_size, hmore.faults⟩

theorem ofArgument_standsIn (hfrom : From name start cs) :
    (ofArgument start cs).StandsIn name := by
  unfold ofArgument
  split
  · dsimp only
    split
    · refine ⟨nofun, nofun, by simp, fun x hx => ?_⟩
      obtain rfl := List.mem_singleton.1 hx
      exact hfrom.le_size
    · next text rest hsplit =>
      obtain ⟨rfl, -⟩ := splitBrackets?_eq_some hsplit
      have hjunk := from_takeWhile hfrom.append isInner
      have hmore := modifiersFrom_standsIn hjunk.append fun c hc => head?_dropWhile_isInner hc
      refine ⟨nofun, fun p hp => ?_, hmore.modifiers, ?_⟩
      · obtain rfl := ArgumentPiece.dynamic.inj (Option.some.inj hp)
        exact hfrom.between
      · dsimp only
        split
        · exact hmore.faults
        · exact List.forall_mem_cons.2 ⟨hfrom.append.le_size, hmore.faults⟩
  · dsimp only
    have hpiece := from_takeWhile hfrom isInner
    have hmore := modifiersFrom_standsIn hpiece.append fun c hc => head?_dropWhile_isInner hc
    split
    · exact hmore
    · refine ⟨fun p hp => ?_, nofun, hmore.modifiers, hmore.faults⟩
      obtain rfl := ArgumentPiece.fixed.inj (Option.some.inj hp)
      exact hpiece.between

end KeyTail

namespace KeyParts

/-- The pieces behind `v-` stand there. -/
theorem ofLongName_standsIn {name cs : List Char} (hfrom : From name 2 cs) :
    (ofLongName cs).written.StandsIn name ∧ (ofLongName cs).tail.StandsIn name := by
  have hname := KeyTail.from_takeWhile hfrom isNamePart
  refine ⟨hname.between, ?_⟩
  unfold ofLongName
  dsimp only
  split
  · next rest hrest =>
    rw [hrest] at hname
    exact KeyTail.ofArgument_standsIn hname.append.cons
  · next hcolon =>
    refine KeyTail.modifiersFrom_standsIn hname.append fun c hc => ?_
    rcases head?_dropWhile_isNamePart hc with rfl | rfl
    · obtain ⟨rest, hrest⟩ := List.head?_eq_some_iff.1 hc
      exact absurd hrest (hcolon rest)
    · rfl

/-- All pieces of a name stand in it. -/
theorem ofName_standsIn (cs : List Char) :
    (ofName cs).written.StandsIn cs ∧ (ofName cs).tail.StandsIn cs := by
  have hnothing : ({} : KeyTail).StandsIn cs := ⟨nofun, nofun, by simp, by simp⟩
  have hall : Between cs 0 cs (0 + byteLength cs) := by
    refine From.between (?_ : From cs 0 (cs ++ []))
    rw [List.append_nil]
    exact From.start cs
  unfold ofName
  split
  · next rest => exact ofLongName_standsIn (From.start ('v' :: '-' :: rest)).cons.cons
  · next c rest _ =>
    split
    · next name hsign =>
      have hrest : From (c :: rest) 1 rest := by
        rw [← ofSign?_size hsign, ← Nat.zero_add c.utf8Size]
        exact (From.start (c :: rest)).cons
      exact ⟨(From.start (c :: rest)).between_cons, KeyTail.ofArgument_standsIn hrest⟩
    · exact ⟨hall, hnothing⟩
  · exact ⟨hall, hnothing⟩

end KeyParts
end TemplateSyntax
