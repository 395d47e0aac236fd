import TemplateSyntax.Proofs.LexerContent

/-! # Steps in character references

A reference that is decided is flushed: its raw text or what it stands for is appended to the
token of the state that the lexer goes back to.  What it stands for is never longer than its raw
text, and then the bytes that are left over go on record as gaps. -/

namespace TemplateSyntax

open Text (byteLength From Between)

namespace TokenBuffer

variable {b : TokenBuffer} {l : Locator} {k : TokenKind} {s : String} {i : Nat}

/-- To a token of the same kind text is appended wherever it starts. -/
theorem append_of_kind (h : b.current.map PendingToken.kind = some k) :
    b.append l k s i = b.push s := by
  rw [append, continueAs, if_pos h]

theorem kind_append : (b.append l k s i).current.map PendingToken.kind = some k := by
  unfold append continueAs
  split
  · next h =>
    rw [← h]
    simp [push, Function.comp_def]
  · rfl

end TokenBuffer

namespace Reaches

variable {cs : List Char} {l : Locator} {gap gap' : Nat → Prop} {taken : List Token}
  {b : TokenBuffer} {r : LexState} {s : String} {f f' : Nat} {ps : List Piece}

theorem mono (h : Reaches cs l gap taken b f r) (hg : ∀ x, x ≤ f → (gap' x ↔ gap x)) :
    Reaches cs l gap' taken b f r := by
  cases r with
  | data | rcdata => exact Builds.mono h hg
  | attributeValueDoubleQuoted | attributeValueSingleQuoted | attributeValueUnquoted =>
    exact BuildsValue.mono h hg
  | interpolationData => exact BuildsMustache.mono h hg
  | _ => exact False.elim h

/-- The text goes on with pieces that close no value. -/
theorem append (h : Reaches cs l gap taken b f r) (hl : l.index.size = byteLength cs)
    (hps : Decodes cs gap f ps f') (hs : Piece.values ps = s.toList)
    (hq : ∀ c ∈ Piece.raws ps, isQuote c = false) :
    Reaches cs l gap taken
      (if r.isAttributeValue then b.push s else b.append l r.textKind s f) f' r := by
  have hle := hps.between.le
  have hsize := Nat.le_trans hle hps.between.le_size
  have hclose : ∀ c, isQuote c = true → c ∉ Piece.raws ps := by
    intro c hc hm
    rw [hq c hm] at hc
    exact absurd hc (by decide)
  cases r with
  | data | rcdata =>
    exact (Builds.append hl h (Nat.le_refl f) hsize rfl (by decide) s).raise hle
  | attributeValueDoubleQuoted | attributeValueSingleQuoted =>
    refine BuildsValue.push h hps hs fun c hc => hclose c ?_
    obtain rfl := Option.some.inj hc
    decide
  | attributeValueUnquoted => exact BuildsValue.push h hps hs (by simp)
  | interpolationData => exact BuildsMustache.append hl h ⟨ps, hps, hs⟩ (.inl rfl)
  | _ => exact False.elim h

end Reaches

namespace Lexer

variable {cs : List Char} {taken : List Token} {l l' : Lexer} {s : LexState} {raw : List Char}
  {f stop : Nat} {here : Bool}

theorem stage_of_reaches {r : LexState}
    (h : Reaches cs l.locator l.HasGap taken l.buffer (l.frontier here) r)
    (hs : r = .interpolationData → Surrounded cs l.outerState l.interpolationStart) :
    l.Stage cs taken here r := by
  cases r with
  | data | rcdata | attributeValueUnquoted => exact .inl h
  | attributeValueDoubleQuoted | attributeValueSingleQuoted => exact h
  | interpolationData => exact ⟨hs rfl, h⟩
  | _ => exact False.elim h

theorem hasGap_addGaps {index count x : Nat} :
    (l.addGaps index count).HasGap x ↔ l.HasGap x ∨ (index ≤ x ∧ x < index + count) := by
  simp only [HasGap, addGaps, ← Array.mem_toList_iff, Array.toList_appendList, List.mem_append,
    List.mem_map, List.mem_range'_1, Locator.host]
  refine or_congr_right ⟨?_, fun hx => ⟨x, hx, rfl⟩⟩
  rintro ⟨y, hy, heq⟩
  obtain rfl : y = x := Nat.add_left_cancel heq
  exact hy

/-! ## Flushing -/

/-- The reference was flushed up to `stop`, and the lexer goes back to its state. -/
structure Flushed (cs : List Char) (taken : List Token) (l l' : Lexer) (stop : Nat) : Prop where
  locator : l'.locator = l.locator
  cursor : l'.cursor = l.cursor
  quiet : l'.again = l.again ∧ l'.finished = l.finished
  returnState : l'.returnState = l.returnState
  outer : l'.outerState = l.outerState ∧ l'.interpolationStart = l.interpolationStart
  noBreach : l'.breaches = []
  behind : ∀ x, stop ≤ x → (l'.HasGap x ↔ l.HasGap x)
  reaches : Reaches cs l'.locator l'.HasGap taken l'.buffer stop l'.returnState

namespace InReference

/-- One more character belongs to the reference. -/
theorem extend (hr : l.InReference cs taken raw l.cursor.start)
    (h : Enters cs taken l s) {c : Char} (hc : l.cursor.char = some c)
    (hcr : isReferenceChar c = true) : l.InReference cs taken (raw ++ [c]) l.cursor.index := by
  have hn := (isReferenceChar_plain hcr).1
  refine { hr with
    between := hr.between.append (h.steady.on.between hc hn)
    chars := fun d hd => ?_
    noGap := fun x hlo hhi => ?_ }
  · rcases List.mem_append.1 hd with hd | hd
    · exact hr.chars d hd
    · obtain rfl := List.mem_singleton.1 hd
      exact hcr
  · by_cases hx : x ≤ l.cursor.start
    · exact hr.noGap x hlo hx
    · exact h.steady.noGap hc hn (Nat.le_of_not_le hx)

/-- The text of a reference is found by its length. -/
theorem rawReference (hr : l.InReference cs taken raw stop) : l.rawReference stop = raw := by
  obtain ⟨heq, post, hp⟩ := hr.between
  have htext := hr.text.unique hp
  have hlen : stop - l.refStart = raw.length := by
    rw [heq, byteLength_of_isReferenceChar hr.chars, Nat.add_sub_cancel_left]
  rw [Lexer.rawReference, htext, hlen, List.take_left]

theorem checkReference (hr : l.InReference cs taken raw stop) (hb : l.breaches = []) :
    (l.checkReference stop).breaches = [] := by
  have hle := hr.between.le
  have hlen : byteLength raw = stop - l.refStart := by
    rw [hr.between.1, Nat.add_sub_cancel_left]
  simp [Lexer.checkReference, hr.rawReference, hb, hle, hlen]

/-- Raw text is made of pieces that are copied. -/
theorem copies (hr : l.InReference cs taken raw stop) :
    Decodes cs l.HasGap l.refStart (Piece.copies raw) stop :=
  .copies hr.between (fun c hc => (isReferenceChar_plain (hr.chars c hc)).2.1) hr.noGap

theorem noQuote (hr : l.InReference cs taken raw stop) :
    ∀ c ∈ raw, isQuote c = false :=
  fun c hc => (isReferenceChar_plain (hr.chars c hc)).2.2

theorem flushReference (hr : l.InReference cs taken raw stop)
    (hl : l.locator.index.size = byteLength cs) (hb : l.breaches = []) :
    Flushed cs taken l (l.flushReference (String.ofList raw)) stop where
  locator := rfl
  cursor := rfl
  quiet := ⟨rfl, rfl⟩
  returnState := rfl
  outer := ⟨rfl, rfl⟩
  noBreach := hb
  behind := fun _ _ => Iff.rfl
  reaches := hr.reaches.append hl hr.copies (by simp) (by simpa using hr.noQuote)

theorem flushRaw (hr : l.InReference cs taken raw stop)
    (hl : l.locator.index.size = byteLength cs) (hb : l.breaches = []) :
    Flushed cs taken l (l.flushRaw stop) stop := by
  rw [Lexer.flushRaw, hr.rawReference]
  exact { hr.flushReference hl hb with noBreach := hr.checkReference hb }

theorem flushDecoded (hr : l.InReference cs taken raw stop)
    (hl : l.locator.index.size = byteLength cs) (hb : l.breaches = []) {decoded : String}
    (hd : IsReference raw decoded.toList) :
    Flushed cs taken l (l.flushDecoded decoded stop) stop := by
  unfold Lexer.flushDecoded
  dsimp only
  split
  · next hle =>
    have hsize := Text.byteLength_toList decoded
    have hlen := hr.between.1
    have hend := hr.between.le_size
    have hpos := hd.value_pos
    let c := (l.checkReference stop).flushReference decoded
    have hgap : ∀ x, (c.addGaps (l.refStart + decoded.utf8ByteSize)
        (stop - (l.refStart + decoded.utf8ByteSize))).HasGap x ↔
        l.HasGap x ∨ (l.refStart + byteLength decoded.toList ≤ x ∧ x < stop) := by
      intro x
      rw [hasGap_addGaps, hsize]
      have : c.HasGap x ↔ l.HasGap x := Iff.rfl
      rw [this]
      refine or_congr_right ?_
      omega
    have hpiece : Decodes cs (c.addGaps (l.refStart + decoded.utf8ByteSize)
        (stop - (l.refStart + decoded.utf8ByteSize))).HasGap l.refStart
        [⟨raw, decoded.toList⟩] stop := by
      refine .single (.reference hd (by omega)) hr.between fun x hlo hhi => ?_
      rw [hgap, or_iff_right (hr.noGap x hlo hhi)]
    have hbefore : ∀ x, x ≤ l.refStart → ((c.addGaps (l.refStart + decoded.utf8ByteSize)
        (stop - (l.refStart + decoded.utf8ByteSize))).HasGap x ↔ l.HasGap x) := fun x hx => by
      rw [hgap, or_iff_left (by omega)]
    have hreach := (hr.reaches.mono hbefore).append hl hpiece (s := decoded) (by simp)
      (by simpa [Piece.raws] using hr.noQuote)
    refine ⟨rfl, rfl, ⟨rfl, rfl⟩, rfl, ⟨rfl, rfl⟩, ?_, fun x hx => ?_, hreach⟩
    · have hcheck : c.breaches = [] := hr.checkReference hb
      have hloc : c.locator.index.size = byteLength cs := hl
      simp only [addGaps]
      rw [hcheck, List.append_nil, Breach.expect_eq_nil, hloc]
      simp only [decide_eq_true_eq]
      omega
    · rw [hgap, or_iff_left (by omega)]
  · exact hr.flushRaw hl hb

end InReference

/-- A lexer that has flushed goes on with the current character in the state it goes back to. -/
theorem Flushed.reconsume_sound (hf : Flushed cs taken l l' l.cursor.start) (h : Enters cs taken l s)
    (hs : l.returnState = .interpolationData → Surrounded cs l.outerState l.interpolationStart) :
    Sound cs taken (l'.reconsume l'.returnState) := by
  have hsteady : Steady cs l'.locator l'.cursor l'.gaps l'.breaches := by
    refine ⟨hf.locator ▸ h.steady.size, hf.cursor ▸ h.steady.on, fun x hx => ?_, hf.noBreach⟩
    rw [hf.cursor] at hx ⊢
    exact (hf.behind x hx).trans (h.steady.ahead x hx)
  have hreach := hf.reaches
  rw [← hf.cursor] at hreach
  refine .repeats hsteady (hf.quiet.2.trans h.quiet.2) rfl (stage_of_reaches hreach fun hr => ?_)
  have hout := hs (hf.returnState ▸ hr)
  rwa [← hf.outer.1, ← hf.outer.2] at hout

/-- A lexer that has flushed goes on behind the current character in the state it goes back to. -/
theorem Flushed.goto_sound (hf : Flushed cs taken l l' l.cursor.index) (h : Enters cs taken l s)
    (hs : l.returnState = .interpolationData → Surrounded cs l.outerState l.interpolationStart)
    (hc : l.cursor.char ≠ none) : Sound cs taken (l'.goto l'.returnState) := by
  have hreach := hf.reaches
  rw [← hf.cursor] at hreach
  have hnext := h.steady.on.next
  rw [← hf.cursor] at hnext
  refine .jumps (hf.locator ▸ h.steady.size) hf.noBreach
    ⟨hf.quiet.1.trans h.quiet.1, hf.quiet.2.trans h.quiet.2⟩ (hf.cursor ▸ hc) hnext
    (fun x hx => ?_) (stage_of_reaches hreach fun hr => ?_)
  · have hx' : l.cursor.index ≤ x := hf.cursor ▸ hx
    have hle := h.steady.on.start_le_index
    have hgap : l'.HasGap x ↔ l.cursor.dropped? = some x :=
      (hf.behind x hx').trans (h.steady.ahead x (by omega))
    show ¬ l'.HasGap x
    rw [hgap]
    intro hd
    have := h.steady.on.dropped_lt hd
    omega
  · have hout := hs (hf.returnState ▸ hr)
    rwa [← hf.outer.1, ← hf.outer.2] at hout

/-- A lexer that has flushed goes on behind characters of one byte that stand at the cursor. -/
theorem Flushed.skip_sound {tail : List Char} {c : Char}
    (hf : Flushed cs taken l l' (l.cursor.start + (c :: raw).length)) (h : Enters cs taken l s)
    (hs : l.returnState = .interpolationData → Surrounded cs l.outerState l.interpolationStart)
    (hh : l.cursor.here = (c :: raw) ++ tail) (hc : ∀ d ∈ c :: raw, isReferenceChar d = true) :
    Sound cs taken ((l'.skip (c :: raw).length).goto l.returnState) := by
  have hplain := isReferenceChar_plain (hc c (List.mem_cons_self ..))
  obtain ⟨htake, hne, hfrom, hdrop, hg⟩ :=
    skip_spec h hh ⟨hplain.1, hplain.2.1⟩ (byteLength_of_isReferenceChar hc)
  rw [← hdrop] at hfrom
  rw [← hf.cursor] at htake hne hfrom hg
  have hreach := hf.reaches
  rw [← hf.cursor, hf.returnState] at hreach
  have hbreach : (l'.skip (c :: raw).length).breaches = [] := by
    simp only [skip, htake, hf.noBreach, decide_true]
    rfl
  refine .jumps (hf.locator ▸ h.steady.size) hbreach
    ⟨hf.quiet.1.trans h.quiet.1, hf.quiet.2.trans h.quiet.2⟩ hne hfrom (fun x hx => ?_)
    (stage_of_reaches hreach fun hr => ?_)
  · show ¬ l'.HasGap x
    rw [hf.behind x (hf.cursor ▸ hx)]
    exact hg x hx
  · have hout := hs hr
    rwa [← hf.outer.1, ← hf.outer.2] at hout

/-! ## Named references -/

/-- An `&` that starts no reference. -/
theorem flushAmpersand (h : Enters cs taken l s) (hr : l.InReference cs taken ['&'] l.cursor.start) :
    Flushed cs taken l (l.flushReference "&") l.cursor.start :=
  hr.flushReference h.steady.size h.steady.noBreach

theorem onCharacterReference_sound (h : Enters cs taken l .characterReference) :
    Sound cs taken (l.onCharacterReference l.cursor.char) := by
  have hr : l.InReference cs taken ['&'] l.cursor.start := h.stage
  have hf := flushAmpersand h hr
  unfold onCharacterReference
  split
  · next hc =>
    have he := hr.extend h hc (by decide)
    exact .takes h.steady h.quiet (Cursor.char_ne_none hc) { he with }
  · next c _ hc =>
    split
    · exact .repeats h.steady h.quiet.2 rfl { hr with }
    · exact hf.reconsume_sound h hr.surrounded
  · exact hf.reconsume_sound h hr.surrounded

/-- A name that was found at the current character belongs to the reference. -/
theorem InReference.extendName (hr : l.InReference cs taken ['&'] l.cursor.start)
    (h : Enters cs taken l s) {c : Char} {tail : List Char}
    (hh : l.cursor.here = (c :: raw) ++ tail) (hc : ∀ d ∈ c :: raw, isReferenceChar d = true) :
    l.InReference cs taken ('&' :: c :: raw) (l.cursor.start + (c :: raw).length) := by
  have hplain := isReferenceChar_plain (hc c (List.mem_cons_self ..))
  have hchar := h.steady.on.char_of_here hh hplain.2.1
  have hfrom := h.steady.on.here
  rw [hh] at hfrom
  have hb := hfrom.between
  rw [byteLength_of_isReferenceChar hc] at hb
  refine { hr with
    between := hr.between.append hb
    chars := fun d hd => ?_
    noGap := fun x hlo hhi => ?_ }
  · rcases List.mem_cons.1 hd with rfl | hd
    · decide
    · exact hc d hd
  · by_cases hx : x ≤ l.cursor.start
    · exact hr.noGap x hlo hx
    · exact h.steady.noGap hchar hplain.1 (Nat.le_of_not_le hx)

/-- A name is flushed as it is or decoded, with or without a diagnostic. -/
theorem InReference.flushName (hr : l.InReference cs taken raw stop)
    (hl : l.locator.index.size = byteLength cs) (hb : l.breaches = [])
    {found : NamedReference.Found} (href : IsReference raw found.value.toList) (goesOn : Bool) :
    Flushed cs taken l
      (if l.returnState.isAttributeValue && !found.terminated && goesOn then l.flushRaw stop
      else if found.terminated then l.flushDecoded found.value stop
      else (l.reportAt .missingSemicolonAfterCharacterReference stop).flushDecoded found.value
        stop) stop := by
  split
  · exact hr.flushRaw hl hb
  · split
    · exact hr.flushDecoded hl hb href
    · -- the diagnostic leaves what was read as it is
      have hr' : (l.reportAt .missingSemicolonAfterCharacterReference stop).InReference cs taken
          raw stop := { hr with }
      have hb' : (l.reportAt .missingSemicolonAfterCharacterReference stop).breaches = [] := by
        simp [reportAt, hb, hl, hr.between.le_size]
      have hf := hr'.flushDecoded hl hb' href
      exact { hf with }

theorem onNamedCharacterReference_sound (h : Enters cs taken l .namedCharacterReference) :
    Sound cs taken l.onNamedCharacterReference := by
  have hr : l.InReference cs taken ['&'] l.cursor.start := h.stage
  unfold onNamedCharacterReference
  split
  · have hf := flushAmpersand h hr
    refine .repeats h.steady h.quiet.2 rfl ⟨hf.reaches, hr.surrounded, fun hv => ?_⟩
    have hv' : l.returnState.isAttributeValue = false := hv
    show (l.flushReference "&").buffer.current.map PendingToken.kind = _
    simp only [flushReference, hv', Bool.false_eq_true, if_false]
    exact TokenBuffer.kind_append
  · next found hfound =>
    obtain ⟨raw, tail, hh, hlen, hne, hchars, href⟩ := NamedReference.match?_eq_some hfound
    cases raw with
    | nil => exact absurd rfl hne
    | cons c raw =>
      have hx := hr.extendName h hh hchars
      rw [← hlen]
      refine Flushed.skip_sound ?_ h hr.surrounded hh hchars
      exact hx.flushName h.steady.size h.steady.noBreach href _

theorem onAmbiguousAmpersand_sound (h : Enters cs taken l .ambiguousAmpersand) :
    Sound cs taken (l.onAmbiguousAmpersand l.cursor.char) := by
  have ha : l.AfterAmpersand cs taken l.cursor.start := h.stage
  unfold onAmbiguousAmpersand
  split
  · exact .repeats h.steady.checkHere h.quiet.2 rfl (stage_of_reaches ha.reaches ha.surrounded)
  · next c _ hc =>
    split
    · next halnum =>
      obtain ⟨ps, hps, hv, hraw⟩ := h.steady.on.decodes hc h.steady.ahead
      have hplain := isReferenceChar_plain (isReferenceChar_of_isAlphanum halnum)
      have hreach := ha.reaches.append h.steady.size hps (s := String.singleton c)
        (by rw [hv, String.toList_singleton]) fun d hd => by
          rcases hraw d hd with rfl | rfl | rfl
          · exact hplain.2.2
          · rfl
          · rfl
      -- the token has the kind already, so that where the reference starts does not matter
      have hbuffer : (l.flushReference (String.singleton c)).buffer =
          if l.returnState.isAttributeValue then l.buffer.push (String.singleton c)
          else l.buffer.append l.locator l.returnState.textKind (String.singleton c)
            l.cursor.start := by
        unfold flushReference
        cases hval : l.returnState.isAttributeValue with
        | true => rfl
        | false =>
          simp only [Bool.false_eq_true, if_false]
          rw [TokenBuffer.append_of_kind (ha.kind hval), TokenBuffer.append_of_kind (ha.kind hval)]
      refine .takes h.steady h.quiet (Cursor.char_ne_none hc) ⟨?_, ha.surrounded, fun hval => ?_⟩
      · rw [← hbuffer] at hreach
        exact hreach
      · have hval' : l.returnState.isAttributeValue = false := hval
        show (l.flushReference (String.singleton c)).buffer.current.map PendingToken.kind = _
        rw [hbuffer]
        simp only [hval', Bool.false_eq_true, if_false]
        exact TokenBuffer.kind_append
    · exact .repeats h.steady h.quiet.2 rfl (stage_of_reaches ha.reaches ha.surrounded)
  · exact .repeats h.steady h.quiet.2 rfl (stage_of_reaches ha.reaches ha.surrounded)

/-! ## Numeric references -/

theorem onNumericCharacterReference_sound (h : Enters cs taken l .numericCharacterReference) :
    Sound cs taken (l.onNumericCharacterReference l.cursor.char) := by
  have hr : l.InReference cs taken ['&', '#'] l.cursor.start := h.stage
  unfold onNumericCharacterReference
  split
  · next hc =>
    have he := hr.extend h hc (by decide)
    exact .takes h.steady h.quiet (Cursor.char_ne_none hc) ⟨'x', .inl rfl, { he with }, rfl⟩
  · next hc =>
    have he := hr.extend h hc (by decide)
    exact .takes h.steady h.quiet (Cursor.char_ne_none hc) ⟨'X', .inr rfl, { he with }, rfl⟩
  · exact .repeats h.steady h.quiet.2 rfl ⟨{ hr with }, rfl⟩

/-- Numbers behind the last code point all mean the same. -/
theorem codeCharacter_min (n : Nat) : codeCharacter (min n 0x110000) = codeCharacter n := by
  by_cases hn : n ≤ 0x110000
  · rw [Nat.min_eq_left hn]
  · have hlt : 0x10ffff < n := by omega
    rw [Nat.min_eq_right (Nat.le_of_not_le hn), codeCharacter, codeCharacter, if_pos (by simp),
      if_pos (by simp [hlt])]

theorem numeral_snoc (radix : Nat) (ds : List Char) (d : Char) :
    numeral radix (ds ++ [d]) = numeral radix ds * radix + CharClass.digitValue d := by
  simp [numeral]

/-- A number that stopped to grow stays behind the last code point. -/
theorem addDigit_value {radix n : Nat} {ds : List Char} (h : n = min (numeral radix ds) 0x110000) (d : Nat)
    (hr : 0 < radix) : min (n * radix + d) 0x110000 =
      min (numeral radix ds * radix + d) 0x110000 := by
  by_cases hle : numeral radix ds ≤ 0x110000
  · rw [h, Nat.min_eq_left hle]
  · have hn : n = 0x110000 := by omega
    have h1 : 0x110000 ≤ n * radix := hn ▸ Nat.le_mul_of_pos_right _ hr
    have h2 : numeral radix ds ≤ numeral radix ds * radix := Nat.le_mul_of_pos_right _ hr
    omega

/-- The numeral of a reference: the text in front of its digits, what its digits are, and the state
they are read in. -/
structure Numeral (cs : List Char) (taken : List Token) (isDigit : Char → Bool) (radix : Nat)
    (lead : List Char) (s : LexState) : Prop where
  digit : ∀ d, isDigit d = true → CharClass.isHexDigit d = true
  radix_pos : 0 < radix
  radix_le : radix ≤ 16
  reference : ∀ ds close, ds ≠ [] → (∀ d ∈ ds, isDigit d = true) → close = [] ∨ close = [';'] →
    IsReference (lead ++ ds ++ close) [codeCharacter (numeral radix ds)]
  stage : ∀ (l : Lexer) here ds, l.InReference cs taken (lead ++ ds) (l.frontier here) →
    l.ReadsDigits isDigit radix here ds → l.Stage cs taken here s

theorem decimal_numeral :
    Numeral cs taken Char.isDigit 10 ['&', '#'] .decimalCharacterReference where
  digit d hd := by simp [CharClass.isHexDigit, hd]
  radix_pos := by decide
  radix_le := by decide
  reference ds close hne hd hc := .decimal hne hd hc
  stage l here ds hr hd := ⟨ds, hr, hd⟩

theorem hexadecimal_numeral {x : Char} (hx : x = 'x' ∨ x = 'X') :
    Numeral cs taken CharClass.isHexDigit 16 ['&', '#', x] .hexadecimalCharacterReference where
  digit d hd := hd
  radix_pos := by decide
  radix_le := by decide
  reference ds close hne hd hc := .hexadecimal hx hne hd hc
  stage l here ds hr hd := ⟨x, ds, hx, hr, hd⟩

section
variable {isDigit : Char → Bool} {radix : Nat} {lead : List Char} {r : LexState}
  (hn : Numeral cs taken isDigit radix lead r) (h : Enters cs taken l s)
include hn h

theorem onNumericReferenceStart_sound (hr : l.InReference cs taken lead l.cursor.start)
    (hcode : l.charCode = 0) :
    Sound cs taken (l.onNumericReferenceStart isDigit r l.cursor.char) := by
  unfold onNumericReferenceStart
  split
  · next hd =>
    have hr' : l.InReference cs taken (lead ++ []) l.cursor.start := by rwa [List.append_nil]
    exact .repeats h.steady h.quiet.2 rfl
      (hn.stage _ true [] { hr' with } ⟨by simp, hcode.trans (by simp [numeral]), fun _ => ⟨rfl, hd⟩⟩)
  · have hr' : (l.report .absenceOfDigitsInNumericCharacterReference).InReference cs taken lead
        l.cursor.start := { hr with }
    have hf := hr'.flushRaw h.steady.size h.steady.checkHere.noBreach
    have hf' : Flushed cs taken l _ l.cursor.start := { hf with }
    exact hf'.reconsume_sound h hr.surrounded

/-- The end of a reference of digits. -/
theorem finishNumericReference_flushed {ds close : List Char}
    (hr : l.InReference cs taken (lead ++ ds ++ close) stop)
    (hd : l.ReadsDigits isDigit radix true ds) (hne : ds ≠ []) (hc : close = [] ∨ close = [';']) :
    Flushed cs taken l (l.finishNumericReference stop) stop := by
  have href := hn.reference ds close hne hd.digits hc
  rw [← codeCharacter_min, ← hd.value, ← String.toList_singleton] at href
  unfold finishNumericReference
  split
  · next cause _ =>
    have hr' : (l.report cause).InReference cs taken (lead ++ ds ++ close) stop := { hr with }
    have hf := hr'.flushDecoded h.steady.size h.steady.checkHere.noBreach href
    exact { hf with }
  · exact hr.flushDecoded h.steady.size h.steady.noBreach href

/-- The end of a reference of digits without a semicolon. -/
theorem endNumericReference_sound {ds : List Char}
    (hr : l.InReference cs taken (lead ++ ds) l.cursor.start)
    (hd : l.ReadsDigits isDigit radix true ds) (hne : ds ≠ []) (cause : Cause) :
    Sound cs taken
      (((l.report cause).finishNumericReference l.cursor.start).reconsume l.returnState) := by
  have hr' : (l.report cause).InReference cs taken (lead ++ ds ++ []) l.cursor.start := by
    rw [List.append_nil]
    exact { hr with }
  have hd' : (l.report cause).ReadsDigits isDigit radix true ds := { hd with }
  have h' : Enters cs taken (l.report cause) r :=
    ⟨h.steady.checkHere, h.quiet, hn.stage _ true ds { hr with } hd'⟩
  have hf := finishNumericReference_flushed hn h' hr' hd' hne (.inl rfl)
  have hs := hf.reconsume_sound h' hr.surrounded
  rwa [hf.returnState] at hs

theorem onNumericReferenceDigits_sound {ds : List Char}
    (hr : l.InReference cs taken (lead ++ ds) l.cursor.start)
    (hd : l.ReadsDigits isDigit radix true ds) :
    Sound cs taken (l.onNumericReferenceDigits isDigit radix r l.cursor.char) := by
  -- without digits the current character is one
  have hnil : ∀ c, l.cursor.char = some c → isDigit c = false → ds ≠ [] := by
    rintro c hc hno rfl
    have hany := (hd.first rfl).2
    rw [hc] at hany
    exact absurd hany (by simp [hno])
  unfold onNumericReferenceDigits
  split
  · next c hc =>
    split
    · next hdig =>
      have hhex := hn.digit c hdig
      have he := hr.extend h hc (isReferenceChar_of_isAlphanum (isAlphanum_of_isHexDigit hhex))
      rw [List.append_assoc] at he
      have hle := digitValue_le hhex
      have hvalue := hd.value
      have hprod : l.charCode * radix ≤ 0x110000 * 16 :=
        Nat.mul_le_mul (hvalue ▸ Nat.min_le_right _ _) hn.radix_le
      have hsteady : Steady cs l.locator l.cursor l.gaps
          (l.addDigit radix (CharClass.digitValue c)).breaches := by
        have hfit : l.charCode * radix + CharClass.digitValue c < Offset.limit :=
          Nat.lt_of_le_of_lt (Nat.add_le_add hprod hle) (by decide)
        refine { h.steady with noBreach := ?_ }
        simp [addDigit, h.steady.noBreach, hfit]
      have hd' : (l.addDigit radix (CharClass.digitValue c)).ReadsDigits isDigit radix false
          (ds ++ [c]) := by
        refine ⟨fun d hmem => ?_, ?_, by simp⟩
        · rcases List.mem_append.1 hmem with hmem | hmem
          · exact hd.digits d hmem
          · obtain rfl := List.mem_singleton.1 hmem
            exact hdig
        · rw [numeral_snoc]
          exact addDigit_value hvalue _ hn.radix_pos
      exact .takes hsteady h.quiet (Cursor.char_ne_none hc)
        (hn.stage _ false (ds ++ [c]) { he with } { hd' with })
    · next hno =>
      have hne := hnil c hc (by simpa using hno)
      split
      · next hsemi =>
        obtain rfl : c = ';' := by simpa using hsemi
        have he := hr.extend h hc (by decide)
        have hf := finishNumericReference_flushed hn h he hd hne (.inr rfl)
        have hs := hf.goto_sound h hr.surrounded (Cursor.char_ne_none hc)
        rwa [hf.returnState] at hs
      · exact endNumericReference_sound hn h hr hd hne _
  · next hc =>
    have hne : ds ≠ [] := by
      rintro rfl
      have hany := (hd.first rfl).2
      rw [hc] at hany
      exact absurd hany (by simp)
    exact endNumericReference_sound hn h hr hd hne _

end

end Lexer
end TemplateSyntax
