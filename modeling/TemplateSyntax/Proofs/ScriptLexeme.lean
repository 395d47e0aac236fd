import TemplateSyntax.Proofs.Reference
import TemplateSyntax.Script.Lexeme

/-! # Lexemes and the text

A lexeme that is read is cut out of the text: behind a gap stands the text of the token, and behind
that what is left.  A word is written in the characters of its name, each as it is or as an escape. -/

namespace TemplateSyntax

open Text (byteLength From)

namespace Text

variable {cs rest rest' : List Char} {i stop stop' : Nat}

/-- `rest`, which starts at `stop`, is what is left of the text `cs`, which starts at `i`, behind some
characters. -/
def Leaves (cs : List Char) (i : Nat) (rest : List Char) (stop : Nat) : Prop :=
  ∃ mid, cs = mid ++ rest ∧ stop = i + byteLength mid

namespace Leaves

theorem refl (cs : List Char) (i : Nat) : Leaves cs i cs i := ⟨[], rfl, rfl⟩

theorem trans (h : Leaves cs i rest stop) (h' : Leaves rest stop rest' stop') :
    Leaves cs i rest' stop' := by
  obtain ⟨mid, rfl, rfl⟩ := h
  obtain ⟨mid', rfl, rfl⟩ := h'
  exact ⟨mid ++ mid', (List.append_assoc ..).symm, by rw [byteLength_append]; omega⟩

theorem cons (c : Char) (h : Leaves cs (i + c.utf8Size) rest stop) :
    Leaves (c :: cs) i rest stop := by
  obtain ⟨mid, rfl, rfl⟩ := h
  exact ⟨c :: mid, rfl, by rw [byteLength_cons]; omega⟩

theorem drop {n m : Nat} (h : byteLength (cs.take n) = m) : Leaves cs i (cs.drop n) (i + m) :=
  ⟨cs.take n, (List.take_append_drop n cs).symm, by rw [h]⟩

theorem le (h : Leaves cs i rest stop) : i ≤ stop := by
  obtain ⟨mid, -, rfl⟩ := h
  exact Nat.le_add_right ..

theorem place {text : List Char} (h : Leaves cs i rest stop) (hf : From text i cs) :
    From text stop rest := by
  obtain ⟨mid, rfl, rfl⟩ := h
  exact hf.append

end Leaves
end Text

namespace Script

/-! ## Names -/

/-- A Unicode escape as it is written, and its character. -/
inductive Escape : List Char → Char → Prop
  | digits {ds : List Char} (hlen : ds.length = 4) (hhex : ∀ d ∈ ds, CharClass.isHexDigit d = true) :
    Escape ('\\' :: 'u' :: ds) (Char.ofNat (Lexeme.hexValue ds))
  | braces {ds : List Char} (hne : ds ≠ []) (hhex : ∀ d ∈ ds, CharClass.isHexDigit d = true)
    (hmax : Lexeme.hexValue ds ≤ 0x10ffff) :
    Escape ('\\' :: 'u' :: '{' :: (ds ++ ['}'])) (Char.ofNat (Lexeme.hexValue ds))

/-- The text `raw` is one way to write a name: each character as it is, or as an escape. -/
inductive Spelled : List Char → List Char → Prop
  | nil : Spelled [] []
  | char {c : Char} {raw name : List Char} (hc : Unicode.isIdentifierPart c = true)
    (h : Spelled raw name) : Spelled (c :: raw) (c :: name)
  | escape {e raw name : List Char} {c : Char} (he : Escape e c) (h : Spelled raw name) :
    Spelled (e ++ raw) (c :: name)

/-- The characters that words are written in. -/
def isWordChar (c : Char) : Bool :=
  Unicode.isIdentifierPart c || c == '\\' || c == '\x7b' || c == '\x7d'

theorem isIdentifierPart_of_start {c : Char} (h : Unicode.isIdentifierStart c = true) :
    Unicode.isIdentifierPart c = true := by
  simp only [Unicode.isIdentifierStart, Unicode.isIdentifierPart, Char.isAlphanum, Bool.or_eq_true,
    Bool.and_eq_true] at h ⊢
  grind

theorem isIdentifierPart_of_isAlphanum {c : Char} (h : c.isAlphanum = true) :
    Unicode.isIdentifierPart c = true := by
  simp [Unicode.isIdentifierPart, h]

theorem Escape.isWordChar {e : List Char} {c : Char} (h : Escape e c) :
    ∀ d ∈ e, isWordChar d = true := by
  have hhex : ∀ {d : Char}, CharClass.isHexDigit d = true → Script.isWordChar d = true :=
    fun hd => by
      simp [Script.isWordChar, isIdentifierPart_of_isAlphanum (isAlphanum_of_isHexDigit hd)]
  have hu : Script.isWordChar 'u' = true := by decide
  cases h with
  | digits _ hds =>
    rintro d (_ | ⟨_, _ | ⟨_, hd⟩⟩)
    · rfl
    · exact hu
    · exact hhex (hds d hd)
  | braces _ hds =>
    rintro d (_ | ⟨_, _ | ⟨_, _ | ⟨_, hd⟩⟩⟩)
    · rfl
    · exact hu
    · rfl
    · rcases List.mem_append.1 hd with hd | hd
      · exact hhex (hds d hd)
      · rw [List.mem_singleton.1 hd]
        rfl

/-- A name that is written without a backslash is written as it is. -/
theorem Spelled.eq_of_plain {raw name : List Char} (h : Spelled raw name) (hplain : '\\' ∉ raw) :
    raw = name := by
  induction h with
  | nil => rfl
  | char _ _ ih => rw [ih fun hmem => hplain (List.mem_cons_of_mem _ hmem)]
  | escape he _ _ => cases he <;> simp at hplain

theorem Spelled.isWordChar {raw name : List Char} (h : Spelled raw name) :
    ∀ c ∈ raw, isWordChar c = true := by
  induction h with
  | nil => simp
  | char hc _ ih =>
    rintro d (_ | ⟨_, hd⟩)
    · simp [Script.isWordChar, hc]
    · exact ih d hd
  | escape he _ ih =>
    intro d hd
    rcases List.mem_append.1 hd with hd | hd
    · exact he.isWordChar d hd
    · exact ih d hd

namespace Lexeme

open Text (Leaves)

variable {cs rest : List Char} {index stop : Nat}

/-! ## Gaps -/

theorem skipLine_leaves (index : Nat) (cs : List Char) :
    Leaves cs index (skipLine index cs).1 (skipLine index cs).2 := by
  fun_induction skipLine index cs with
  | case1 index => exact .refl [] index
  | case2 index c cs _ => exact .refl _ index
  | case3 index c cs _ ih => exact ih.cons c

theorem skipComment_leaves (index : Nat) (afterBreak : Bool) (cs : List Char) :
    Leaves cs index (skipComment index afterBreak cs).rest
      (skipComment index afterBreak cs).index := by
  fun_induction skipComment index afterBreak cs with
  | case1 index afterBreak => exact .refl [] index
  | case2 index afterBreak cs => exact .cons '*' (.cons '/' (.refl cs _))
  | case3 index afterBreak c cs _ ih => exact ih.cons c

theorem skipGap_leaves (fuel : Nat) (cs : List Char) (index : Nat) (afterBreak : Bool) :
    Leaves cs index (skipGap fuel cs index afterBreak).rest
      (skipGap fuel cs index afterBreak).index := by
  have hline : ∀ {index : Nat} {cs rest : List Char} {stop : Nat},
      skipLine index cs = (rest, stop) → Leaves cs index rest stop := fun {index cs} _ _ h => by
    simpa [h] using skipLine_leaves index cs
  fun_induction skipGap fuel cs index afterBreak with
  | case1 cs index _ => exact .refl cs index
  | case2 _ _ _ rest _ _ hskip ih => exact .cons '/' (.cons '/' ((hline hskip).trans ih))
  | case3 _ _ _ rest => exact .cons '/' (.cons '*' (skipComment_leaves _ _ rest))
  | case4 _ _ _ rest _ _ ih => exact .cons '/' (.cons '*' ((skipComment_leaves _ _ rest).trans ih))
  | case5 _ _ _ rest _ _ hskip ih =>
    exact .cons '<' (.cons '!' (.cons '-' (.cons '-' ((hline hskip).trans ih))))
  | case6 _ _ rest _ _ hskip ih => exact .cons '-' (.cons '-' (.cons '>' ((hline hskip).trans ih)))
  | case7 _ index _ rest => exact .refl _ index
  | case8 _ _ _ c _ _ _ _ _ _ ih => exact ih.cons c
  | case9 _ _ _ c _ _ _ _ _ _ _ ih => exact ih.cons c
  | case10 _ index _ _ rest => exact .refl _ index
  | case11 _ index _ => exact .refl [] index

/-! ## Words -/

/-- What is found behind a backslash and `u` is an escape. -/
theorem escape_of_unicodeEscape? {value n : Nat} (h : unicodeEscape? cs = some (value, n)) :
    Escape ('\\' :: 'u' :: cs.take n) (Char.ofNat value) ∧ byteLength (cs.take n) = n := by
  have hsize : ∀ {ds : List Char}, (∀ d ∈ ds, CharClass.isHexDigit d = true) →
      byteLength ds = ds.length := fun hds =>
    byteLength_of_isReferenceChar fun d hd =>
      isReferenceChar_of_isAlphanum (isAlphanum_of_isHexDigit (hds d hd))
  unfold unicodeEscape? at h
  split at h
  · next rest =>
    have hds : ∀ d ∈ rest.takeWhile CharClass.isHexDigit, CharClass.isHexDigit d = true :=
      List.all_eq_true.1 List.all_takeWhile
    have happend := List.takeWhile_append_dropWhile (p := CharClass.isHexDigit) (l := rest)
    generalize rest.takeWhile CharClass.isHexDigit = ds at h hds happend
    generalize rest.dropWhile CharClass.isHexDigit = tail at happend
    subst happend
    dsimp only at h
    split at h
    · simp at h
    · next hvalue =>
      split at h
      · next hclose =>
        obtain ⟨rfl, rfl⟩ := Prod.mk.inj (Option.some.inj h)
        rw [List.drop_left, beq_iff_eq, List.head?_eq_some_iff] at hclose
        obtain ⟨tail, rfl⟩ := hclose
        have htake : ('\x7b' :: (ds ++ '\x7d' :: tail)).take (ds.length + 2) =
            '\x7b' :: (ds ++ ['\x7d']) := by
          rw [List.take_succ_cons, List.append_cons, List.take_left' (by simp)]
        simp only [Bool.or_eq_true, List.isEmpty_iff, decide_eq_true_eq, not_or, Nat.not_lt] at hvalue
        rw [htake]
        refine ⟨.braces hvalue.1 hds hvalue.2, ?_⟩
        have hopen : '\x7b'.utf8Size = 1 := rfl
        have hclose : '\x7d'.utf8Size = 1 := rfl
        simp only [Text.byteLength_cons, Text.byteLength_append, Text.byteLength_nil, hsize hds, hopen,
          hclose]
        omega
      · simp at h
  · have hds : ∀ d ∈ (cs.take 4).takeWhile CharClass.isHexDigit, CharClass.isHexDigit d = true :=
      List.all_eq_true.1 List.all_takeWhile
    have hprefix := List.takeWhile_prefix CharClass.isHexDigit (l := cs.take 4)
    dsimp only at h
    split at h
    · next hlen =>
      obtain ⟨rfl, rfl⟩ := Prod.mk.inj (Option.some.inj h)
      have hle : (cs.take 4).length ≤ 4 := List.length_take_le ..
      have htake : (cs.take 4).takeWhile CharClass.isHexDigit = cs.take 4 :=
        hprefix.eq_of_length (by have := hprefix.length_le; omega)
      rw [htake] at hds hlen ⊢
      exact ⟨.digits hlen hds, by rw [hsize hds, hlen]⟩
    · simp at h

/-- The text in front of the end of a word spells what was added to its name. -/
theorem wordEnd_spelled (fuel : Nat) (name : String) (escaped : Bool) (cs : List Char) (index : Nat) :
    ∃ raw added, cs = raw ++ (wordEnd fuel name escaped cs index).rest ∧
      (wordEnd fuel name escaped cs index).stop = index + byteLength raw ∧ Spelled raw added ∧
        (wordEnd fuel name escaped cs index).name.toList = name.toList ++ added := by
  have hstay : ∀ {name : String} {cs : List Char} {index : Nat}, ∃ raw added,
      cs = raw ++ cs ∧ index = index + byteLength raw ∧ Spelled raw added ∧
        name.toList = name.toList ++ added := ⟨[], [], rfl, rfl, .nil, by simp⟩
  fun_induction wordEnd fuel name escaped cs index with
  | case3 _ name _ index rest value n hescape _ _ _ ih =>
    obtain ⟨raw, added, hcs, hstop, hspelled, hname⟩ := ih
    obtain ⟨he, hsize⟩ := escape_of_unicodeEscape? hescape
    have hsizes : '\\'.utf8Size = 1 ∧ 'u'.utf8Size = 1 := ⟨rfl, rfl⟩
    refine ⟨'\\' :: 'u' :: rest.take n ++ raw, _, ?_, ?_, .escape he hspelled, ?_⟩
    · rw [List.append_assoc, ← hcs]
      simp
    · rw [hstop]
      simp only [Text.byteLength_append, Text.byteLength_cons, hsizes, hsize]
      omega
    · rw [hname, String.toList_push, List.append_assoc]
      rfl
  | case6 _ name _ index c rest _ _ hpart ih =>
    obtain ⟨raw, added, hcs, hstop, hspelled, hname⟩ := ih
    refine ⟨c :: raw, _, ?_, ?_, .char hpart hspelled, ?_⟩
    · rw [List.cons_append, ← hcs]
    · rw [hstop, Text.byteLength_cons, Nat.add_assoc]
    · rw [hname, String.toList_push, List.append_assoc]
      rfl
  | _ => exact hstay

theorem readWord_leaves (cs : List Char) (start : Nat) (name : String) :
    Leaves cs start (readWord cs start name).rest (readWord cs start name).stop := by
  obtain ⟨raw, -, hcs, hstop, -⟩ := wordEnd_spelled (cs.length + 1) name false cs start
  exact ⟨raw, hcs, hstop⟩

/-- A word that is not wrong has a character. -/
theorem wordEnd_length {fuel : Nat} {name : String} {escaped : Bool} {c : Char} {index : Nat}
    (hc : Unicode.isIdentifierPart c = true ∨ c = '\\')
    (hf : (wordEnd (fuel + 1) name escaped (c :: cs) index).fault = none) :
    (wordEnd (fuel + 1) name escaped (c :: cs) index).rest.length ≤ cs.length := by
  have hrest : ∀ (name : String) (escaped : Bool) (tail : List Char) (index : Nat),
      tail.length ≤ cs.length → (wordEnd fuel name escaped tail index).rest.length ≤ cs.length := by
    intro name escaped tail index hle
    obtain ⟨raw, -, htail, -⟩ := wordEnd_spelled fuel name escaped tail index
    have := congrArg List.length htail
    rw [List.length_append] at this
    omega
  rw [wordEnd.eq_def] at hf ⊢
  dsimp only at hf ⊢
  split at hf
  · next rest _ heq =>
    obtain ⟨rfl, rfl⟩ := List.cons.inj heq
    split at hf
    · simp at hf
    · next value n _ =>
      generalize (if name.isEmpty = true then Unicode.isIdentifierStart (Char.ofNat value)
        else Unicode.isIdentifierPart (Char.ofNat value)) = allowed at hf ⊢
      cases allowed with
      | false => simp at hf
      | true =>
        refine hrest _ _ _ _ ?_
        rw [List.length_drop, List.length_cons]
        omega
  · simp at hf
  · next hne heq =>
    obtain ⟨rfl, rfl⟩ := List.cons.inj heq
    rw [if_pos (hc.resolve_right hne)]
    exact hrest _ _ _ _ (Nat.le_refl _)
  · next heq => simp at heq

/-! ## Numerals -/

/-- The first `n` characters of a text take `n` bytes. -/
def IsNarrow (n : Nat) (cs : List Char) : Prop := byteLength (cs.take n) = n

namespace IsNarrow

variable {n m : Nat} {c : Char}

theorem zero (cs : List Char) : IsNarrow 0 cs := rfl

theorem add (h : IsNarrow n cs) (h' : IsNarrow m (cs.drop n)) : IsNarrow (n + m) cs := by
  unfold IsNarrow
  rw [List.take_add, Text.byteLength_append, h, h']

theorem cons (hc : c.utf8Size = 1) (h : IsNarrow n cs) : IsNarrow (1 + n) (c :: cs) := by
  unfold IsNarrow
  rw [Nat.add_comm, List.take_succ_cons, Text.byteLength_cons, hc, h, Nat.add_comm]

theorem leaves (h : IsNarrow n cs) (index : Nat) : Leaves cs index (cs.drop n) (index + n) :=
  .drop h

end IsNarrow

theorem utf8Size_of_isDigit {c : Char} (h : c.isDigit = true) : c.utf8Size = 1 :=
  isReferenceChar_utf8Size (isReferenceChar_of_isAlphanum (isAlphanum_of_isDigit h))

theorem digitsLength_narrow {isDigit : Char → Bool}
    (hd : ∀ c, isDigit c = true → c.utf8Size = 1) (cs : List Char) :
    IsNarrow (digitsLength isDigit cs) cs := by
  fun_induction digitsLength isDigit cs with
  | case1 c cs hc ih => exact ih.cons (hd c hc)
  | case2 c _ d rest hunder ih =>
    rw [Bool.and_eq_true, beq_iff_eq] at hunder
    exact ih.cons (by rw [hunder.1]; rfl)
  | case3 c _ d rest => exact .zero _
  | case4 c => exact .zero _
  | case5 => exact .zero _

theorem exponentLength_narrow (cs : List Char) : IsNarrow (exponentLength cs) cs := by
  unfold exponentLength
  split
  · next c rest =>
    split
    · next hc =>
      have hsize : c.utf8Size = 1 := by
        rw [Bool.or_eq_true, beq_iff_eq, beq_iff_eq] at hc
        rcases hc with rfl | rfl <;> rfl
      extract_lets sign digits
      have hsign : IsNarrow sign rest := by
        cases rest with
        | nil => exact .zero _
        | cons d rest =>
          have heq : sign = if d == '+' || d == '-' then 1 else 0 := rfl
          rw [heq]
          split
          · next hd =>
            rw [Bool.or_eq_true, beq_iff_eq, beq_iff_eq] at hd
            refine .cons ?_ (.zero _)
            rcases hd with rfl | rfl <;> rfl
          · exact .zero _
      split
      · exact .zero _
      · rw [Nat.add_assoc]
        exact .cons hsize (hsign.add (digitsLength_narrow (fun _ => utf8Size_of_isDigit) _))
    · exact .zero _
  · exact .zero _

theorem fractionLength_narrow (cs : List Char) : IsNarrow (fractionLength cs) cs := by
  unfold fractionLength
  split
  · next rest =>
    dsimp only
    rw [Nat.add_assoc]
    exact .cons rfl ((digitsLength_narrow (fun _ => utf8Size_of_isDigit) rest).add
      (exponentLength_narrow _))
  · exact exponentLength_narrow cs

theorem utf8Size_of_radixDigit {c d : Char} {isDigit : Char → Bool}
    (h : radixDigit? c = some isDigit) (hd : isDigit d = true) : d.utf8Size = 1 := by
  have hdigit : ∀ {d : Char}, '0' ≤ d → d ≤ '7' → d.utf8Size = 1 := by
    intro d h0 h7
    rw [Char.utf8Size_eq_one_iff]
    exact Nat.le_trans h7 (by decide)
  unfold radixDigit? at h
  split at h
  · obtain rfl := Option.some.inj h
    exact isReferenceChar_utf8Size (isReferenceChar_of_isAlphanum (isAlphanum_of_isHexDigit hd))
  · split at h
    · obtain rfl := Option.some.inj h
      simp only [Bool.and_eq_true, decide_eq_true_eq] at hd
      exact hdigit hd.1 hd.2
    · split at h
      · obtain rfl := Option.some.inj h
        simp only [Bool.or_eq_true, beq_iff_eq] at hd
        rcases hd with rfl | rfl <;> rfl
      · simp at h

theorem utf8Size_of_radix {c : Char} (h : (radixDigit? c).isSome = true) : c.utf8Size = 1 := by
  unfold radixDigit? at h
  simp only [Bool.or_eq_true, beq_iff_eq] at h
  split at h
  · next hc => rcases hc with rfl | rfl <;> rfl
  · split at h
    · next hc => rcases hc with rfl | rfl <;> rfl
    · split at h
      · next hc => rcases hc with rfl | rfl <;> rfl
      · simp at h

theorem numeralLength?_narrow {n : Nat} {big : Bool} (h : numeralLength? cs = some (n, big)) :
    IsNarrow n cs := by
  have hsuffix : ∀ {m : Nat}, IsNarrow m cs → ∀ {n : Nat} {big : Bool},
      (if (cs.drop m).head? == some 'n' then (m + 1, true) else (m, false)) = (n, big) →
        IsNarrow n cs := by
    intro m hm n big h
    split at h
    · next hhead =>
      obtain ⟨rfl, -⟩ := Prod.mk.inj h
      rw [beq_iff_eq, List.head?_eq_some_iff] at hhead
      obtain ⟨tail, htail⟩ := hhead
      refine hm.add ?_
      rw [htail]
      rfl
    · obtain ⟨rfl, -⟩ := Prod.mk.inj h
      exact hm
  have hdigits : ∀ tail : List Char, IsNarrow (digitsLength Char.isDigit tail) tail :=
    digitsLength_narrow fun _ => utf8Size_of_isDigit
  unfold numeralLength? at h
  dsimp only at h
  split at h
  · next c rest =>
    split at h
    · next isDigit hradix =>
      split at h
      · simp at h
      · refine hsuffix ?_ (Option.some.inj h)
        rw [show 2 = 1 + 1 from rfl, Nat.add_assoc]
        exact .cons rfl (.cons (utf8Size_of_radix (by rw [hradix]; rfl))
          (digitsLength_narrow (fun _ => utf8Size_of_radixDigit hradix) rest))
    · have hall : IsNarrow (1 + digitsLength Char.isDigit (c :: rest)) ('0' :: c :: rest) :=
        .cons rfl (hdigits _)
      split at h
      · split at h
        · obtain ⟨rfl, -⟩ := Prod.mk.inj (Option.some.inj h)
          exact hall
        · obtain ⟨rfl, -⟩ := Prod.mk.inj (Option.some.inj h)
          exact hall.add (fractionLength_narrow _)
      · have hone : IsNarrow (1 + fractionLength (c :: rest)) ('0' :: c :: rest) :=
          .cons rfl (fractionLength_narrow _)
        split at h
        · exact hsuffix (.cons rfl (.zero _)) (Option.some.inj h)
        · obtain ⟨rfl, -⟩ := Prod.mk.inj (Option.some.inj h)
          exact hone
  · obtain ⟨rfl, -⟩ := Prod.mk.inj (Option.some.inj h)
    exact fractionLength_narrow _
  · have hall := (hdigits cs).add (fractionLength_narrow (cs.drop (digitsLength Char.isDigit cs)))
    split at h
    · exact hsuffix hall (Option.some.inj h)
    · obtain ⟨rfl, -⟩ := Prod.mk.inj (Option.some.inj h)
      exact hall

theorem numeralLength?_eq_none (h : numeralLength? cs = none) : IsNarrow 2 cs := by
  unfold numeralLength? at h
  dsimp only at h
  split at h
  · next c rest =>
    split at h
    · next isDigit hradix =>
      exact .cons rfl (.cons (utf8Size_of_radix (by rw [hradix]; rfl)) (.zero _))
    · split at h
      · split at h <;> simp at h
      · simp at h
  · simp at h
  · simp at h

/-! ## Strings, templates and regular expressions -/

theorem byteLength_escaped (index : Nat) (c : Char) :
    index + byteLength ['\\', c] = index + 1 + c.utf8Size := by
  have hsize : '\\'.utf8Size = 1 := rfl
  simp only [Text.byteLength_cons, Text.byteLength_nil, hsize]
  omega

/-- What is left behind the end of a string, if that was found. -/
def StringEnd.Leaves (cs : List Char) (index : Nat) : StringEnd → Prop
  | .closed _ rest stop | .unclosed _ rest stop => Text.Leaves cs index rest stop
  | .fault _ => True

theorem StringEnd.Leaves.cons (front : List Char) {x : StringEnd}
    (h : x.Leaves cs (index + byteLength front)) : (x.cons front).Leaves (front ++ cs) index := by
  have hfront : Text.Leaves (front ++ cs) index cs (index + byteLength front) := ⟨front, rfl, rfl⟩
  cases x with
  | closed raw rest stop => exact hfront.trans h
  | unclosed raw rest stop => exact hfront.trans h
  | fault _ => trivial

theorem stringEnd_leaves {quote : Char} (hq : quote.utf8Size = 1) (index : Nat) (cs : List Char) :
    (stringEnd quote index cs).Leaves cs index := by
  fun_induction stringEnd quote index cs with
  | case1 index => exact .refl [] index
  | case2 index cs ih => exact .cons ['\\', '\r', '\n'] ih
  | case3 index c cs _ _ ih =>
    exact .cons ['\\', c] (by rwa [byteLength_escaped])
  | case4 => trivial
  | case5 index c cs _ _ hc =>
    rw [beq_iff_eq] at hc
    subst hc
    refine Text.Leaves.cons c ?_
    rw [hq]
    exact .refl cs _
  | case6 index c cs => exact .refl _ index
  | case7 index c cs _ _ _ _ ih => exact .cons [c] ih

/-- What is left behind the end of a part of a template, if that was found. -/
def TemplateEnd.Leaves (cs : List Char) (index : Nat) : TemplateEnd → Prop
  | .closed rest stop | .hole rest stop => Text.Leaves cs index rest stop
  | .unclosed => True

theorem TemplateEnd.Leaves.behind (front : List Char) {x : TemplateEnd}
    (h : x.Leaves cs (index + byteLength front)) : x.Leaves (front ++ cs) index := by
  have hfront : Text.Leaves (front ++ cs) index cs (index + byteLength front) := ⟨front, rfl, rfl⟩
  cases x with
  | closed rest stop => exact hfront.trans h
  | hole rest stop => exact hfront.trans h
  | unclosed => trivial

theorem templateEnd_leaves (index : Nat) (cs : List Char) :
    (templateEnd index cs).Leaves cs index := by
  fun_induction templateEnd index cs with
  | case1 => trivial
  | case2 index c cs ih =>
    exact .behind ['\\', c] (by rwa [byteLength_escaped])
  | case3 index cs => exact .cons '$' (.cons '\x7b' (.refl cs _))
  | case4 index c cs _ _ hc =>
    rw [beq_iff_eq] at hc
    subst hc
    exact .cons '\x60' (.refl cs _)
  | case5 index c cs _ _ _ ih => exact .behind [c] ih

theorem regexEnd_leaves (index : Nat) (inClass : Bool) (cs : List Char) :
    Leaves cs index (regexEnd index inClass cs).rest (regexEnd index inClass cs).stop := by
  fun_induction regexEnd index inClass cs with
  | case1 index => exact .refl [] index
  | case2 index _ c cs => exact .cons '\\' (.refl _ _)
  | case3 index _ c cs _ ih =>
    refine .cons '\\' (.cons c ?_)
    exact ih
  | case4 index _ c cs => exact .refl _ index
  | case5 index _ c cs _ _ hc =>
    rw [Bool.and_eq_true, beq_iff_eq] at hc
    rw [hc.1]
    exact .cons '/' (.refl cs _)
  | case6 index _ c cs _ _ _ ih => exact ih.cons c

/-! ## Punctuators -/

/-- Each punctuator has as many bytes as characters. -/
theorem byteLength_of_mem_punctuators {p : String} (h : p ∈ "?." :: punctuators) :
    byteLength p.toList = p.length := by
  have hall : ∀ p ∈ "?." :: punctuators, byteLength p.toList = p.length := by decide
  exact hall p h

theorem punctuator?_eq_some {p : String} (h : punctuator? cs = some p) :
    p.toList <+: cs ∧ byteLength p.toList = p.length := by
  unfold punctuator? at h
  split at h
  · split at h
    · obtain rfl := Option.some.inj h
      exact ⟨⟨_, rfl⟩, rfl⟩
    · obtain rfl := Option.some.inj h
      exact ⟨⟨_, rfl⟩, rfl⟩
  · obtain rfl := Option.some.inj h
    exact ⟨⟨[], rfl⟩, rfl⟩
  · have hprefix := List.find?_some h
    exact ⟨List.isPrefixOf_iff_prefix.1 hprefix,
      byteLength_of_mem_punctuators (List.mem_cons_of_mem _ (List.mem_of_find?_eq_some h))⟩

end Lexeme

/-! ## Tokens -/

/-- How a token stands in the text `cs` that it is read from: behind a gap, and in front of what is left.
A word is a way to write its name, and a punctuator is written as it is. -/
structure Lexed.StandsIn (l : Lexed) (cs : List Char) (i : Nat) : Prop where
  front : Text.Leaves cs i l.here l.token.start
  back : Text.Leaves l.here l.token.start l.rest l.token.stop
  word : ∀ {name : String} {escaped : Bool}, l.token.lexeme = .word name escaped →
    ∃ raw, l.here = raw ++ l.rest ∧ raw ≠ [] ∧ Spelled raw name.toList
  punct : ∀ {p : String}, l.token.lexeme = .punct p → l.here = p.toList ++ l.rest
  eof : l.token.lexeme = .eof → l.here = []

/-- Whether it is nothing but its place that matters about a lexeme. -/
def Lexeme.isOther : Lexeme → Bool
  | .eof | .word _ _ | .punct _ => false
  | _ => true

theorem Lexed.StandsIn.other {cs rest : List Char} {i stop : Nat} {x : Lexeme} {afterBreak : Bool}
    {fault : Option Nat} (h : Text.Leaves cs i rest stop) (hx : x.isOther = true) :
    (⟨⟨x, i, stop, afterBreak⟩, cs, rest, fault⟩ : Lexed).StandsIn cs i where
  front := .refl cs i
  back := h
  word heq := by
    obtain rfl : x = _ := heq
    exact absurd hx Bool.false_ne_true
  punct heq := by
    obtain rfl : x = _ := heq
    exact absurd hx Bool.false_ne_true
  eof heq := by
    obtain rfl : x = _ := heq
    exact absurd hx Bool.false_ne_true

namespace Lexeme

open Text (Leaves)

variable {cs : List Char}

theorem readHere_standsIn (cs : List Char) (start : Nat) (afterBreak : Bool) :
    (readHere cs start afterBreak).StandsIn cs start := by
  have hone : ∀ (c : Char) (rest : List Char), Leaves (c :: rest) start rest (start + c.utf8Size) :=
    fun c rest => .cons c (.refl rest _)
  have hword : ∀ (cs : List Char) (start : Nat),
      Leaves cs start (readWord cs start "").rest (readWord cs start "").stop := by
    intro cs start
    obtain ⟨raw, -, hcs, hstop, -⟩ := wordEnd_spelled (cs.length + 1) "" false cs start
    exact ⟨raw, hcs, hstop⟩
  unfold readHere
  dsimp only
  split
  · exact ⟨.refl [] _, .refl [] _, fun h => (by cases h), fun h => (by cases h), fun _ => rfl⟩
  · next c rest =>
    split
    · next hstart =>
      split
      · exact .other (hword _ _) rfl
      · next hf =>
        refine ⟨.refl _ _, hword _ _, fun {name escaped} heq => ?_, fun h => (by cases h),
          fun h => (by cases h)⟩
        obtain ⟨rfl, -⟩ := Lexeme.word.inj heq
        obtain ⟨raw, added, hcs, -, hspelled, hname⟩ :=
          wordEnd_spelled ((c :: rest).length + 1) "" false (c :: rest) start
        obtain rfl : _ = added := by simpa using hname
        refine ⟨raw, hcs, ?_, hspelled⟩
        rintro rfl
        have hc : Unicode.isIdentifierPart c = true ∨ c = '\\' := by
          rw [Bool.or_eq_true, beq_iff_eq] at hstart
          exact hstart.imp_left isIdentifierPart_of_start
        have hlen := wordEnd_length hc hf
        have := congrArg List.length hcs
        simp only [List.nil_append, List.length_cons] at this hlen
        omega
    · split
      · next hhash =>
        have hc : c = '#' := by simpa using (Bool.and_eq_true_iff.1 hhash).1
        subst hc
        split
        · exact .other (.cons '#' (hword rest (start + 1))) rfl
        · exact .other (.cons '#' (hword rest (start + 1))) rfl
      · split
        · split
          · next hnone =>
            exact .other ((numeralLength?_eq_none hnone).leaves start) rfl
          · next n big hsome =>
            have hn := (numeralLength?_narrow hsome).leaves start
            split
            · exact .other hn rfl
            · exact .other hn (by split <;> rfl)
        · split
          · next hquote =>
            have hc : c.utf8Size = 1 := by
              rw [Bool.or_eq_true, beq_iff_eq, beq_iff_eq] at hquote
              rcases hquote with rfl | rfl <;> rfl
            have hleaves := stringEnd_leaves hc (start + 1) rest
            rw [← hc] at hleaves ⊢
            split
            · next heq =>
              rw [heq] at hleaves
              exact .other (.cons c hleaves) rfl
            · next heq =>
              rw [heq] at hleaves
              exact .other (.cons c hleaves) rfl
            · exact .other (hone _ _) rfl
          · split
            · exact .other (hone _ _) rfl
            · split
              · next p hp =>
                obtain ⟨⟨tail, htail⟩, hsize⟩ := punctuator?_eq_some hp
                have hdrop : (c :: rest).drop p.length = tail := by
                  rw [← htail]
                  exact List.drop_left' String.length_toList
                rw [hdrop, ← hsize]
                refine ⟨.refl _ _, ⟨p.toList, htail.symm, rfl⟩, fun h => (by cases h), fun {q} heq => ?_,
                  fun h => (by cases h)⟩
                obtain rfl := Lexeme.punct.inj heq
                exact htail.symm
              · exact .other (hone _ _) rfl

/-- A token that is read stands in the text. -/
theorem read_standsIn (cs : List Char) (index : Nat) : (read cs index).StandsIn cs index := by
  have hgap := skipGap_leaves (cs.length + 1) cs index false
  unfold read
  dsimp only
  split
  · exact ⟨hgap, .refl _ _, nofun, nofun, nofun⟩
  · generalize skipGap (cs.length + 1) cs index false = gap at hgap
    obtain ⟨rest, index', afterBreak, unclosed⟩ := gap
    have h := readHere_standsIn rest index' afterBreak
    exact ⟨hgap.trans h.front, h.back, h.word, h.punct, h.eof⟩

end Lexeme

end Script
end TemplateSyntax
