import TemplateSyntax.Proofs.ReaderFacts
import TemplateSyntax.Proofs.ScriptShapes

/-! # Gaps of a script

What is skipped in front of a token are blanks and comments, unless a comment is not closed.  So at the
end of a text nothing else is left behind the last token. -/

namespace TemplateSyntax.Script

open Text (From byteLength)

namespace Lexeme

variable {cs : List Char} {index : Nat}

theorem skipLine_cut (index : Nat) (cs : List Char) :
    ∃ text, cs = text ++ (skipLine index cs).1 ∧ ∀ c ∈ text, isLineBreak c = false := by
  fun_induction skipLine index cs with
  | case1 => exact ⟨[], rfl, by simp⟩
  | case2 => exact ⟨[], rfl, by simp⟩
  | case3 index c cs hc ih =>
    obtain ⟨text, hcs, htext⟩ := ih
    refine ⟨c :: text, congrArg (c :: ·) hcs, fun d hd => ?_⟩
    rcases List.mem_cons.1 hd with rfl | hd
    · exact Bool.eq_false_iff.2 hc
    · exact htext d hd

theorem skipComment_cut {afterBreak : Bool}
    (hclosed : (skipComment index afterBreak cs).unclosed = false) :
    ∃ text, cs = text ++ ("*/".toList ++ (skipComment index afterBreak cs).rest) := by
  fun_induction skipComment index afterBreak cs with
  | case1 => exact absurd hclosed (by simp)
  | case2 _ _ cs => exact ⟨[], rfl⟩
  | case3 index afterBreak c cs _ ih =>
    obtain ⟨text, hcs⟩ := ih hclosed
    exact ⟨c :: text, congrArg (c :: ·) hcs⟩

/-- Blanks and comments are skipped, if no comment is left open. -/
theorem skipGap_trivia {fuel : Nat} {afterBreak : Bool}
    (hclosed : (skipGap fuel cs index afterBreak).unclosed = false) :
    ∃ raw, cs = raw ++ (skipGap fuel cs index afterBreak).rest ∧ Trivia raw := by
  have hline : ∀ {mark rest rest' last : List Char} {i i' : Nat}, skipLine i rest = (rest', i') →
      mark ∈ ["//".toList, "<!--".toList, "-->".toList] → (∃ raw, rest' = raw ++ last ∧ Trivia raw) →
      ∃ raw, mark ++ rest = raw ++ last ∧ Trivia raw := by
    rintro mark rest rest' last i i' hskip hmark ⟨raw, rfl, hraw⟩
    obtain ⟨text, hrest, htext⟩ := skipLine_cut i rest
    rw [hskip] at hrest
    refine ⟨_, ?_, .line hmark htext hraw⟩
    rw [hrest]
    simp only [List.append_assoc]
  have hblank : ∀ {d : Char} {rest last : List Char}, isSpace d = true ∨ isLineBreak d = true →
      (∃ raw, rest = raw ++ last ∧ Trivia raw) → ∃ raw, d :: rest = raw ++ last ∧ Trivia raw := by
    rintro d rest last hd ⟨raw, rfl, hraw⟩
    exact ⟨d :: raw, rfl, .blank hd hraw⟩
  fun_induction skipGap fuel cs index afterBreak with
  | case1 => exact ⟨[], rfl, .nil⟩
  | case2 _ _ _ rest _ _ hskip ih => exact @hline "//".toList _ _ _ _ _ hskip (by simp) (ih hclosed)
  | case3 => exact absurd hclosed (by simp [*])
  | case4 _ _ _ rest _ hopen ih =>
    obtain ⟨raw, hrest, hraw⟩ := ih hclosed
    obtain ⟨text, htext⟩ := skipComment_cut (Bool.eq_false_iff.2 hopen)
    refine ⟨_, ?_, @Trivia.block text raw hraw⟩
    refine (congrArg ("/*".toList ++ ·) htext).trans ?_
    refine (congrArg (fun last => "/*".toList ++ (text ++ ("*/".toList ++ last))) hrest).trans ?_
    simp only [List.append_assoc]
  | case5 _ _ _ rest _ _ hskip ih => exact @hline "<!--".toList _ _ _ _ _ hskip (by simp) (ih hclosed)
  | case6 _ _ rest _ _ hskip ih => exact @hline "-->".toList _ _ _ _ _ hskip (by simp) (ih hclosed)
  | case7 => exact ⟨[], rfl, .nil⟩
  | case8 _ _ _ d _ _ _ _ _ hd ih => exact hblank (.inr hd) (ih hclosed)
  | case9 _ _ _ d _ _ _ _ _ _ hd ih => exact hblank (.inl hd) (ih hclosed)
  | case10 => exact ⟨[], rfl, .nil⟩
  | case11 => exact ⟨[], rfl, .nil⟩

/-- A lexeme is read from its own start on. -/
theorem readHere_here (cs : List Char) (start : Nat) (afterBreak : Bool) :
    (readHere cs start afterBreak).here = cs := by
  unfold readHere
  dsimp only
  repeat' first | rfl | split

end Lexeme

variable {cs : List Char} {s s' : ParseState}

namespace ParseState.At

/-- Between two tokens there is a gap. -/
theorem gap (h : s.At cs) (hgood : ∀ i, s.token.lexeme ≠ .bad i) :
    Gap cs s.lastStop s.token.start := by
  obtain ⟨tail, hfrom, htoken, hhere, -⟩ := h.lexed
  have hfront := (Lexeme.read_standsIn tail s.lastStop).front
  rw [← htoken, ← hhere] at hfront
  unfold Lexeme.read at htoken hhere
  dsimp only at htoken hhere
  split at htoken
  · exact absurd (congrArg ScriptToken.lexeme htoken) (hgood _)
  next hopen =>
  rw [if_neg hopen, Lexeme.readHere_here] at hhere
  obtain ⟨raw, htail, hraw⟩ := Lexeme.skipGap_trivia (Bool.eq_false_iff.2 hopen)
  obtain ⟨mid, hmid, hstart⟩ := hfront
  rw [hhere] at hmid
  obtain rfl : mid = raw := List.append_cancel_right (hmid.symm.trans htail)
  exact ⟨mid, ⟨hstart, _, hmid ▸ hfrom⟩, hraw⟩

/-- At the end of a text there is nothing but a gap. -/
theorem gap_of_eof (h : s.At cs) (heof : s.token.lexeme = .eof) : Gap cs s.lastStop (byteLength cs) := by
  obtain ⟨tail, -, hin⟩ := h.standsIn
  have hsize := h.here.size
  rw [show s.here = [] from hin.eof heof, Text.byteLength_nil, Nat.add_zero] at hsize
  exact hsize ▸ h.gap (by simp [heof])

theorem charAt (h : s.At cs) {p : String} {c : Char} (hp : s.token.lexeme = .punct p)
    (hc : p.toList = [c]) : CharAt cs s.token.start c := by
  have hfrom := h.punct hp
  rw [hc] at hfrom
  exact ⟨_, hfrom⟩

/-- A punctuator ends behind its character. -/
theorem stop_of_punct (h : s.At cs) {p : String} {c : Char} (hp : s.token.lexeme = .punct p)
    (hc : p.toList = [c]) (hsize : c.utf8Size = 1) : s.token.stop = s.token.start + 1 := by
  have hfrom := h.punct hp
  rw [hc] at hfrom
  have hrest := h.rest.size
  have hnext : s.token.start + 1 + byteLength s.rest = byteLength cs := hsize ▸ hfrom.cons.size
  omega

end ParseState.At

namespace Parser

/-- What ends a text by an optional semicolon is followed by nothing else. -/
theorem isLast_of_semicolon {u : Unit} (hs : s.At cs) (hs' : s'.At cs) (h : semicolon s = .ok u s')
    (heof : s'.token.lexeme = .eof) : IsLast cs s.lastStop := by
  have hend := hs'.gap_of_eof heof
  rcases semicolon_ok h with rfl | ⟨hp, hadv⟩
  · exact .inl hend
  · rw [advance_ok hadv, hs.stop_of_punct hp rfl rfl] at hend
    exact .inr ⟨s.token.start, hs.gap (by simp [hp]), hs.charAt hp rfl, hend⟩

end Parser

end TemplateSyntax.Script
