import TemplateSyntax.Proofs.ReportSources

/-! # Characters that are wrong wherever they stand

U+0000, control characters and noncharacters are reported where they are read.  A character is read once,
however often it is at hand, and what is jumped over is none of them, so that there is one diagnostic for
each of these characters of the text, and none besides. -/

namespace TemplateSyntax

open Text (byteLength From Between Gives Scanned)

namespace Text

variable {front back cs : List Char} {pos : Nat}

/-- The characters of a text, each with its index; the first one is at `pos`. -/
def indexedFrom (pos : Nat) : List Char → List (Nat × Char)
  | [] => []
  | c :: cs => (pos, c) :: indexedFrom (pos + c.utf8Size) cs

theorem indexedFrom_append (pos : Nat) (front back : List Char) : indexedFrom pos (front ++ back) =
    indexedFrom pos front ++ indexedFrom (pos + byteLength front) back := by
  induction front generalizing pos with
  | nil => rfl
  | cons c front ih =>
    rw [List.cons_append, indexedFrom, indexedFrom, ih, byteLength_cons, ← Nat.add_assoc,
      List.cons_append]

theorem mem_of_mem_indexedFrom {r : Nat × Char} (h : r ∈ indexedFrom pos cs) :
    pos ≤ r.1 ∧ r.2 ∈ cs := by
  induction cs generalizing pos with
  | nil => exact absurd h List.not_mem_nil
  | cons c cs ih =>
    rcases List.mem_cons.1 h with rfl | h
    · exact ⟨Nat.le_refl _, List.mem_cons_self ..⟩
    · obtain ⟨hle, hmem⟩ := ih h
      exact ⟨Nat.le_trans (Nat.le_add_right _ _) hle, List.mem_cons_of_mem c hmem⟩

theorem pairwise_indexedFrom (pos : Nat) (cs : List Char) :
    (indexedFrom pos cs).Pairwise fun a b => a.1 ≤ b.1 := by
  induction cs generalizing pos with
  | nil => exact .nil
  | cons c cs ih =>
    refine .cons (fun r hr => ?_) (ih _)
    exact Nat.le_trans (Nat.le_add_right _ _) (mem_of_mem_indexedFrom hr).1

end Text

/-! ## Which characters are wrong -/

/-- Whether the cause is about the character, wherever it stands. -/
def Cause.isAbout : Cause → Char → Bool
  | .unexpectedNullCharacter, c => c.toNat == 0
  | .controlCharacterInInputStream, c => CharClass.isDisallowedControl c.toNat
  | .noncharacterInInputStream, c => CharClass.isNoncharacter c.toNat
  | _, _ => false

/-- No character is wrong in two ways. -/
theorem inputFault?_eq_some_iff {c : Char} {cause : Cause} :
    Cursor.inputFault? c = some cause ↔ cause.isAbout c = true := by
  have hcontrol : CharClass.isDisallowedControl c.toNat = true → c.toNat ≠ 0 ∧ c.toNat ≤ 0x9f := by
    simp only [CharClass.isDisallowedControl, CharClass.isControl, Bool.and_eq_true, Bool.or_eq_true,
      decide_eq_true_eq, bne_iff_ne]
    omega
  have hnoncharacter : CharClass.isNoncharacter c.toNat = true → 0x9f < c.toNat := by
    simp only [CharClass.isNoncharacter, Bool.and_eq_true, Bool.or_eq_true, decide_eq_true_eq,
      beq_iff_eq]
    omega
  unfold Cursor.inputFault?
  constructor
  · intro h
    repeat' split at h
    · next hnull => exact Option.some.inj h ▸ beq_iff_eq.2 hnull
    · next hc => exact Option.some.inj h ▸ hc
    · next hn => exact Option.some.inj h ▸ hn
    · cases h
  · intro h
    unfold Cause.isAbout at h
    split at h
    · rw [if_pos (beq_iff_eq.1 h)]
    · rw [if_neg (hcontrol h).1, if_pos h]
    · have hlt := hnoncharacter h
      rw [if_neg (by omega), if_neg fun hc => by have := (hcontrol hc).2; omega, if_pos h]
    · cases h

theorem Cause.isAbout_lineBreak (cause : Cause) : cause.isAbout '\r' = false ∧ cause.isAbout '\n' = false := by
  cases cause <;> exact ⟨rfl, rfl⟩

theorem Lexer.IsPlain.isAbout {c : Char} (h : IsPlain c) (cause : Cause) : cause.isAbout c = false := by
  refine eq_false_of_ne_true fun habout => ?_
  cases h.noFault.symm.trans (inputFault?_eq_some_iff.2 habout)

/-- Those of some characters with their indices that the cause is about. -/
def Cause.among (cause : Cause) (rs : List (Nat × Char)) : List (Nat × Char) :=
  rs.filter fun r => cause.isAbout r.2

namespace Cause

variable {cs : List Char} {rs : List (Nat × Char)} {i : Nat} (cause : Cause)

/-- The first character of a text is that which is read there, or one of a line break. -/
theorem among_of_gives {tail rest : List Char} {c : Char} {j : Nat} (hi : From cs i tail)
    (hg : Gives tail c rest) (hj : From cs j rest) : cause.among (Text.indexedFrom i tail) =
      cause.among [(i, c)] ++ cause.among (Text.indexedFrom j rest) := by
  obtain ⟨hreturn, hfeed⟩ := cause.isAbout_lineBreak
  have hone : '\r'.utf8Size = 1 ∧ '\n'.utf8Size = 1 := ⟨rfl, rfl⟩
  have hi := hi.size
  have hj := hj.size
  unfold among
  cases hg with
  | pair =>
    simp only [Text.byteLength_cons] at hi
    obtain rfl : j = i + '\r'.utf8Size + '\n'.utf8Size := by omega
    simp [Text.indexedFrom, hreturn, hfeed]
  | lone =>
    simp only [Text.byteLength_cons] at hi
    obtain rfl : j = i + '\r'.utf8Size := by omega
    simp [Text.indexedFrom, hreturn, hfeed]
  | char =>
    simp only [Text.byteLength_cons] at hi
    obtain rfl : j = i + c.utf8Size := by omega
    rw [Text.indexedFrom, ← List.singleton_append, List.filter_append]

/-- Where a text is gone through, the cause is about the same characters of it and of what was read. -/
theorem among_scanned (h : Scanned cs rs i) : ∃ tail, From cs i tail ∧
    cause.among (Text.indexedFrom 0 cs) =
      cause.among rs ++ cause.among (Text.indexedFrom i tail) := by
  induction h with
  | start => exact ⟨cs, .start cs, rfl⟩
  | @read rs i j c tail rest _ hi hg hj ih =>
    obtain ⟨tail', hfrom, heq⟩ := ih
    obtain rfl := hfrom.unique hi
    refine ⟨rest, hj, ?_⟩
    rw [heq, cause.among_of_gives hi hg hj, ← List.append_assoc]
    exact congrArg (· ++ _) (List.filter_append ..).symm
  | @jump rs i j mid _ hb hmid ih =>
    obtain ⟨tail, hfrom, heq⟩ := ih
    obtain ⟨rfl, post, hpost⟩ := hb
    obtain rfl := hfrom.unique hpost
    have hplain : cause.among (Text.indexedFrom i mid) = [] := by
      refine List.filter_eq_nil_iff.2 fun r hr => ?_
      rw [(hmid r.2 (Text.mem_of_mem_indexedFrom hr).2).isAbout]
      exact Bool.false_ne_true
    refine ⟨post, hpost.append, heq.trans (congrArg (cause.among rs ++ ·) ?_)⟩
    rw [Text.indexedFrom_append]
    exact (List.filter_append ..).trans (congrArg (· ++ _) hplain)

/-- At the end of the text this is about all of them. -/
theorem among_read (h : Scanned cs rs (byteLength cs)) :
    cause.among rs = cause.among (Text.indexedFrom 0 cs) := by
  obtain ⟨tail, hfrom, heq⟩ := cause.among_scanned h
  have hnil : tail = [] := Text.byteLength_eq_zero.1 (by have := hfrom.size; omega)
  subst hnil
  exact (heq.trans (List.append_nil _)).symm

end Cause

/-! ## What is reported -/

/-- The diagnostics of a cause for the characters of a text that it is about, one for each. -/
def Locator.faultsOf (loc : Locator) (cs : List Char) (cause : Cause) : List Diagnostic :=
  (cause.among (Text.indexedFrom 0 cs)).map fun r => loc.diagnose cause (loc.host r.1)

theorem Locator.pairwise_faultsOf (loc : Locator) (cs : List Char) (cause : Cause) :
    (loc.faultsOf cs cause).Pairwise fun a b => a.offset ≤ b.offset := by
  refine List.pairwise_map.2 (((Text.pairwise_indexedFrom 0 cs).filter _).imp ?_)
  exact fun hle => Nat.add_le_add_left hle loc.origin.offset

/-- What is wrong with characters that were read, cause by cause. -/
theorem Locator.filter_inputFaults (loc : Locator) (cause : Cause) (rs : List (Nat × Char)) :
    (rs.filterMap loc.inputFault?).filter (·.cause = cause) =
      (cause.among rs).map fun r => loc.diagnose cause (loc.host r.1) := by
  induction rs with
  | nil => rfl
  | cons r rs ih =>
    have hiff : Cursor.inputFault? r.2 = some cause ↔ cause.isAbout r.2 = true :=
      inputFault?_eq_some_iff
    unfold Cause.among at ih ⊢
    cases hfault : Cursor.inputFault? r.2 with
    | none =>
      rw [hfault] at hiff
      simp [inputFault?, hfault, ← hiff, ih]
    | some found =>
      rw [hfault, Option.some.injEq] at hiff
      by_cases hfound : found = cause
      · subst hfound
        simp [inputFault?, hfault, hiff.1 rfl, ih, diagnose]
      · have habout : cause.isAbout r.2 = false := eq_false_of_ne_true fun h => hfound (hiff.2 h)
        simp [inputFault?, hfault, habout, hfound, ih, diagnose]

namespace Lexer

variable {cs : List Char} {loc : Locator} {xs : List Lexer} {l : Lexer} {cause : Cause}

/-- Behind the text, what is wrong with its characters is on record. -/
theorem Reported.filter_eq (h : Reported loc xs l) (hs : Scanned cs (readBy xs) (byteLength cs))
    (hc : cause.source = .character) :
    l.diagnostics.toList.filter (·.cause = cause) = loc.faultsOf cs cause := by
  have hfilter : l.diagnostics.toList.filter (·.cause = cause) =
      (l.diagnostics.toList.filter (·.cause.source = .character)).filter (·.cause = cause) := by
    rw [List.filter_filter]
    refine List.filter_congr fun d _ => ?_
    by_cases hd : d.cause = cause
    · simp [hd, hc]
    · simp [hd]
  rw [hfilter, h.characters, loc.filter_inputFaults, cause.among_read hs]
  rfl

/-- However a lexer is led on, what is wrong with the characters of its text is on record at the end. -/
theorem PullsFrom.filter_eq {origin : Origin} {tracing : Bool} {ls : Nat → Lexer}
    (h : PullsFrom (ofChars cs (Locator.ofChars cs origin) tracing) ls) {n : Nat}
    (hn : (ls n).pull.1 = none) (hc : cause.source = .character) :
    (ls n).pull.2.diagnostics.toList.filter (·.cause = cause) =
      (Locator.ofChars cs origin).faultsOf cs cause := by
  have htracks := tracks_start cs origin tracing
  obtain ⟨⟨taken, ht⟩, hw⟩ := (Walked.carried cs).pulls h htracks
    (.ofChars cs (Locator.ofChars cs origin) tracing) n
  obtain ⟨-, hr⟩ := (Reported.carried cs _).pulls h htracks
    (.ofChars cs (Locator.ofChars cs origin) tracing) n
  have hw := (Walked.carried cs).pull ht hw
  have hr := (Reported.carried cs _).pull ht hr
  have hhanded := ht.pull
  generalize (ls n).pull = handed at hn hw hr hhanded
  cases hhanded with
  | token => cases hn
  | ended _ hf _ => exact hr.filter_eq (hw.ended hf ▸ hw.scanned) hc

end Lexer

namespace Template

open Lexer (PullsFrom)

/-- The characters of a template that are wrong wherever they stand are reported once each, at their
offsets, and nothing else is reported so: U+0000, the control characters, and the noncharacters.  This holds
of the template, and of its lexer however it is led on between two pulls. -/
theorem inputFaults_exact (text : String) (o : Options) (reader : Script.Reader) :
    ∀ cause ∈ [Cause.unexpectedNullCharacter, .controlCharacterInInputStream,
        .noncharacterInInputStream],
      (parse text o reader).diagnostics.toList.filter (·.cause = cause) =
          (locatorOf text o).faultsOf text.toList cause ∧
        ∀ ls, PullsFrom (startOf text o).lexer ls → ∀ n, (ls n).pull.1 = none →
          (ls n).pull.2.diagnostics.toList.filter (·.cause = cause) =
            (locatorOf text o).faultsOf text.toList cause := by
  intro cause hmem
  have hc : cause.source = .character := by
    simp only [List.mem_cons, List.not_mem_nil, or_false] at hmem
    rcases hmem with rfl | rfl | rfl <;> rfl
  refine ⟨?_, fun ls h n hn => h.filter_eq hn hc⟩
  have hother : ∀ {d : Diagnostic} {s : Cause.Source}, d.cause.source = s → s ≠ .character →
      decide (d.cause = cause) = false := by
    intro d s hd hs
    refine decide_eq_false fun heq => hs ?_
    rw [← hd, heq, hc]
  obtain ⟨xs, hscanned, hreported⟩ := exists_reported text o
  refine parse_filter text o ?_ (fun d hd => hother hd (by decide))
    (Locator.pairwise_faultsOf _ _ _)
  rw [outlineOf_filter_lexer text o fun d hd _ => hother rfl hd]
  exact hreported.filter_eq hscanned hc

/-- U+0001 behind `</` in raw text is at hand in three steps, and is reported once. -/
theorem inputFaults_exact_heldBack :
    let text := "<style></\x01"
    let pulls := fun n => (Builder.afterPull^[n] (startOf text {})).lexer
    let found := (locatorOf text {}).faultsOf text.toList .controlCharacterInInputStream
    found.map (·.offset) = [9] ∧
      (parse text {} Script.parse).diagnostics.toList.filter
        (·.cause = .controlCharacterInInputStream) = found ∧
      PullsFrom (startOf text {}).lexer pulls ∧ (pulls 3).pull.1 = none ∧
      (pulls 3).pull.2.diagnostics.toList.filter (·.cause = .controlCharacterInInputStream) = found := by
  intro text pulls found
  obtain ⟨hparse, hpulls⟩ := inputFaults_exact text {} Script.parse .controlCharacterInInputStream
    (by decide)
  have hbuilder : PullsFrom (startOf text {}).lexer pulls := pullsFrom_startOf text {}
  have hend : (pulls 3).pull.1 = none := by decide +kernel
  exact ⟨by decide +kernel, hparse, hbuilder, hend, hpulls pulls hbuilder 3 hend⟩

end Template
end TemplateSyntax
