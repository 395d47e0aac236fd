import TemplateSyntax.Proofs.Assembler
import TemplateSyntax.Proofs.PrintedTokens

/-! # The units of printed markup

The assembler makes the units of a forest from its tokens. -/

namespace TemplateSyntax

open Text (byteLength bytes)

namespace Assembler

/-- The assembler makes these units from these tokens, the last ones at the end of the text, and
finds nothing wrong. -/
def Yields : List Token → List MarkupUnit → Assembler → Prop
  | [], us, a => a.commit.output.toList = us ∧ a.commit.diagnostics = #[]
  | t :: ts, us, a => ∃ us', us = (a.process t).output.toList ++ us' ∧
      Yields ts us' { a.process t with output := #[] }

/-- Nothing is left over in the assembler but the unit that it is working on. -/
structure WorksOn (current : Option OpenUnit) (attributeOpen : Bool) (a : Assembler) : Prop where
  current : a.current = current
  attributeOpen : a.attributeOpen = attributeOpen
  opening : a.opening = none
  inside : a.inside = #[]
  output : a.output = #[]
  diagnostics : a.diagnostics = #[]

/-- What the assembler makes in content, when any text ends here. -/
def BehindText (ts : List Token) (us : List MarkupUnit) : Prop :=
  ∀ (a : Assembler) (r : Option TextRun), a.WorksOn (r.map .text) false →
    a.Yields ts ((r.map MarkupUnit.text).toList ++ us)

/-- What the assembler makes when it is working on a unit, or on none. -/
def Making (current : Option OpenUnit) (attributeOpen : Bool) (ts : List Token)
    (us : List MarkupUnit) : Prop :=
  ∀ a : Assembler, a.WorksOn current attributeOpen → a.Yields ts us

variable {a : Assembler} {l : Locator} {t : Token} {ts : List Token} {us : List MarkupUnit}
  {u : OpenUnit} {r : TextRun} {tag : StartTag} {attributeOpen : Bool}

theorem BehindText.making (h : BehindText ts us) : Making none false ts us :=
  fun a ha => h a none ha

/-- What is put out of the units that do not grow any more. -/
theorem WorksOn.commit {current : Option OpenUnit} (h : a.WorksOn current attributeOpen) :
    a.commit.output.toList = (current.map OpenUnit.close).toList ∧ a.commit.diagnostics = #[] ∧
      ({ a.commit with output := #[] } : Assembler).WorksOn none false := by
  rw [commit_of_opening h.opening, emitCurrent, h.current]
  cases current with
  | none =>
    refine ⟨by rw [h.output]; rfl, h.diagnostics, ?_⟩
    exact ⟨h.current, rfl, h.opening, h.inside, rfl, h.diagnostics⟩
  | some u =>
    refine ⟨?_, h.diagnostics, rfl, rfl, h.opening, h.inside, rfl, h.diagnostics⟩
    show (a.output.push u.close).toList = [u.close]
    rw [h.output]
    rfl

/-- Behind the last token, text is put out. -/
theorem BehindText.atEnd : BehindText [] [] := by
  intro a r h
  refine ⟨?_, h.commit.2.1⟩
  rw [h.commit.1, List.append_nil]
  cases r <;> rfl

/-! ## Tags -/

/-- The first token of a tag puts out the text in front of it. -/
theorem BehindText.openTag (hprocess : ∀ a : Assembler, a.process t = a.startTag t u)
    (h : Making (some u) false ts us) : BehindText (t :: ts) us := by
  intro a r ha
  have hkept : (a.keep t).WorksOn (r.map .text) false := { ha with }
  have hcommit := hkept.commit
  refine ⟨us, ?_, h _ ?_⟩
  · rw [hprocess, startTag, hcommit.1]
    cases r <;> rfl
  · rw [hprocess]
    exact { hcommit.2.2 with current := rfl }

/-- A token of a tag that carries nothing. -/
theorem Making.tagPart (hkind : t.kind = .whitespace ∨ t.kind = .association) (hu : u.isTag = true)
    (h : Making (some (u.extend t)) attributeOpen ts us) :
    Making (some u) attributeOpen (t :: ts) us := by
  intro a ha
  have hprocess : a.process t = { a with current := some (u.extend t) }.keep t := by
    have hpart : a.tagPart t = { a with current := some (u.extend t) }.keep t := by
      rw [Assembler.tagPart, ha.current]
      exact if_pos hu
    have hin : a.inTag = true := by simp [inTag, ha.current, hu]
    rcases hkind with hk | hk
    · rw [process, hk]
      exact (if_pos hin).trans hpart
    · rw [process, hk]
      exact hpart
  refine ⟨us, ?_, h _ ?_⟩
  · rw [hprocess]
    show us = a.output.toList ++ us
    rw [ha.output]
    rfl
  · rw [hprocess]
    exact { ha with current := rfl, output := rfl }

/-- The name of an attribute that is new. -/
theorem Making.identifier (hkind : t.kind = .identifier)
    (hnew : ∀ x ∈ tag.attributes, Text.sameLetters x.key.value t.value = false)
    (h : Making (some (.startTag { tag with
      attributes := tag.attributes.push ⟨t, none, t.extent⟩
      extent := tag.extent.through t.extent })) true ts us) :
    Making (some (.startTag tag)) attributeOpen (t :: ts) us := by
  intro a ha
  have hany : (tag.attributes.any fun x => Text.sameLetters x.key.value t.value) = false :=
    Array.any_eq_false'.2 fun x hx => by simp [hnew x hx]
  have hprocess : a.process t = { a.keep t with
      current := some (.startTag { tag with
        attributes := tag.attributes.push ⟨t, none, t.extent⟩
        extent := tag.extent.through t.extent })
      attributeOpen := true } := by
    rw [process, hkind]
    show a.identifier t = _
    unfold Assembler.identifier
    simp only [keep, ha.current, hany, Bool.false_eq_true, if_false]
  refine ⟨us, ?_, h _ ?_⟩
  · rw [hprocess]
    show us = a.output.toList ++ us
    rw [ha.output]
    rfl
  · rw [hprocess]
    exact { ha with current := rfl, attributeOpen := rfl, output := rfl }

/-- The value of an attribute. -/
theorem Making.literal {xs : Array TagAttribute} {x : TagAttribute} (hkind : t.kind = .literal)
    (hxs : tag.attributes = xs.push x)
    (h : Making (some (.startTag { tag with
      attributes := xs.push { x with value := some t, extent := x.extent.through t.extent }
      extent := tag.extent.through t.extent })) false ts us) :
    Making (some (.startTag tag)) true (t :: ts) us := by
  intro a ha
  have hprocess : a.process t = { a.keep t with
      current := some (.startTag { tag with
        attributes := xs.push { x with value := some t, extent := x.extent.through t.extent }
        extent := tag.extent.through t.extent })
      attributeOpen := false } := by
    rw [process, hkind]
    show a.literal t = _
    unfold Assembler.literal
    simp only [keep, ha.current, ha.attributeOpen, if_true, hxs, giveValue_push]
  refine ⟨us, ?_, h _ ?_⟩
  · rw [hprocess]
    show us = a.output.toList ++ us
    rw [ha.output]
    rfl
  · rw [hprocess]
    exact { ha with current := rfl, attributeOpen := rfl, output := rfl }

/-- The end of a tag puts it out. -/
theorem Making.tagClose (attributeOpen : Bool) (hkind : t.kind = .tagClose) (hu : u.isTag = true)
    (hplain : ∀ tag, u = .startTag tag → tag.selfClosing = false)
    (h : Making none false ts us) :
    Making (some u) attributeOpen (t :: ts) ((u.extend t).close :: us) := by
  intro a ha
  have hkept : (a.keep t).WorksOn (some u) attributeOpen := { ha with }
  have hgrown : ({ a.keep t with current := some (u.extend t) } : Assembler).WorksOn
      (some (u.extend t)) attributeOpen := { hkept with current := rfl }
  have hprocess : a.process t =
      ({ a.keep t with current := some (u.extend t) } : Assembler).commit := by
    rw [process, hkind]
    show a.tagClose t false = _
    unfold Assembler.tagClose
    simp only [hkept.current]
    cases u with
    | text r => exact absurd hu (by simp [OpenUnit.isTag])
    | endTag e => rfl
    | startTag tag =>
      have hself := hplain tag rfl
      simp only [OpenUnit.extend, ← hself]
  refine ⟨us, ?_, h _ ?_⟩
  · rw [hprocess, hgrown.commit.1]
    rfl
  · rw [hprocess]
    exact hgrown.commit.2.2

/-! ## Texts -/

/-- A token of text behind text that it touches. -/
theorem Making.join (hkind : t.kind = .whitespace ∨ t.kind = .text)
    (hstop : r.extent.span.stop = t.extent.span.start)
    (h : Making (some (.text ⟨r.value ++ t.value, r.extent.through t.extent⟩)) attributeOpen ts
      us) : Making (some (.text r)) attributeOpen (t :: ts) us := by
  intro a ha
  have hprocess : a.process t = { a.keep t with
      current := some (.text ⟨r.value ++ t.value, r.extent.through t.extent⟩) } := by
    have hin : a.inTag = false := by simp [inTag, ha.current, OpenUnit.isTag]
    have htext : (a.keep t).text t = { a.keep t with
        current := some (.text ⟨r.value ++ t.value, r.extent.through t.extent⟩) } := by
      unfold Assembler.text
      simp only [keep, ha.opening, ha.current, hstop, Option.isSome_none, Bool.false_eq_true,
        if_false, if_true]
    rcases hkind with hk | hk
    · rw [process, hk]
      exact (if_neg (by simp [hin])).trans htext
    · rw [process, hk]
      exact htext
  refine ⟨us, ?_, h _ ?_⟩
  · rw [hprocess]
    show us = a.output.toList ++ us
    rw [ha.output]
    rfl
  · rw [hprocess]
    exact { ha with current := rfl, output := rfl }

/-- A token of text behind a tag. -/
theorem Making.startText (hkind : t.kind = .whitespace ∨ t.kind = .text)
    (h : Making (some (.text ⟨t.value, t.extent⟩)) false ts us) :
    Making none false (t :: ts) us := by
  intro a ha
  have hkept : (a.keep t).WorksOn none false := { ha with }
  have hcommit := hkept.commit
  have hprocess : a.process t = { (a.keep t).commit with
      current := some (.text ⟨t.value, t.extent⟩) } := by
    have hin : a.inTag = false := by simp [inTag, ha.current]
    have htext : (a.keep t).text t = { (a.keep t).commit with
        current := some (.text ⟨t.value, t.extent⟩) } := by
      unfold Assembler.text
      simp only [hkept.opening, hkept.current, Option.isSome_none, Bool.false_eq_true, if_false]
    rcases hkind with hk | hk
    · rw [process, hk]
      exact (if_neg (by simp [hin])).trans htext
    · rw [process, hk]
      exact htext
  refine ⟨us, ?_, h _ ?_⟩
  · rw [hprocess]
    show us = (a.keep t).commit.output.toList ++ us
    rw [hcommit.1]
    rfl
  · rw [hprocess]
    exact { hcommit.2.2 with current := rfl }

open Forest

variable {p : PendingToken} {i j : Nat}

theorem isBlank_or (c : Char) : textKind c = .whitespace ∨ textKind c = .text := by
  unfold textKind
  split
  · exact .inl rfl
  · exact .inr rfl

theorem append_ofList_cons (s : String) (c : Char) (w : List Char) :
    s ++ String.ofList (c :: w) = s ++ String.singleton c ++ String.ofList w :=
  String.toList_inj.1 (by simp)

/-- The tokens of a text join what there is of it. -/
theorem BehindText.joinAll {w : List Char} (hkind : p.kind = .whitespace ∨ p.kind = .text)
    (hstop : r.extent.span.stop = l.host p.start) (h : BehindText ts us) :
    Making (some (.text r)) false (textTokens l p i w ++ ts)
      (.text ⟨r.value ++ p.value ++ String.ofList w,
        r.extent.through (l.between p.start (i + byteLength w))⟩ :: us) := by
  induction w generalizing p i r with
  | nil =>
    refine .join hkind hstop fun a ha => ?_
    have hrest := h a (some _) ha
    simpa [Locator.token, Locator.between] using hrest
  | cons c w ih =>
    rw [textTokens, append_ofList_cons, Text.byteLength_cons, ← Nat.add_assoc]
    split
    · have hvalue : r.value ++ p.value ++ String.singleton c =
          r.value ++ (p.value ++ String.singleton c) := String.append_assoc
      rw [hvalue]
      exact ih (p := { p with value := p.value ++ String.singleton c }) hkind hstop
    · exact .join hkind hstop (ih (p := ⟨textKind c, i, String.singleton c⟩) (isBlank_or c) rfl)

/-- The tokens of a text make up a text of their own behind a tag. -/
theorem BehindText.startAll {w : List Char} (hkind : p.kind = .whitespace ∨ p.kind = .text)
    (h : BehindText ts us) :
    Making none false (textTokens l p i w ++ ts)
      (.text ⟨p.value ++ String.ofList w, l.between p.start (i + byteLength w)⟩ :: us) := by
  induction w generalizing p i with
  | nil =>
    refine .startText hkind fun a ha => ?_
    have hrest := h a (some _) ha
    simpa [Locator.token, Locator.between] using hrest
  | cons c w ih =>
    rw [textTokens, append_ofList_cons, Text.byteLength_cons, ← Nat.add_assoc]
    split
    · exact ih (p := { p with value := p.value ++ String.singleton c }) hkind
    · exact .startText hkind
        (h.joinAll (p := ⟨textKind c, i, String.singleton c⟩) (isBlank_or c) rfl)

/-- A text between tags is put out as a whole. -/
theorem BehindText.text {value : String} (hvalue : value ≠ "") (h : BehindText ts us) :
    Making none false (textTokensAt l i value.toList ++ ts)
      (.text ⟨value, l.between i (i + bytes value)⟩ :: us) := by
  obtain ⟨c, w, hcw⟩ : ∃ c w, value.toList = c :: w :=
    List.exists_cons_of_ne_nil (by simpa using hvalue)
  have heq : value = String.singleton c ++ String.ofList w :=
    String.toList_inj.1 (by simp [hcw])
  rw [bytes, hcw, Text.byteLength_cons, ← Nat.add_assoc, textTokensAt]
  have hall := h.startAll (l := l) (p := ⟨textKind c, i, String.singleton c⟩) (i := i + c.utf8Size)
    (w := w) (isBlank_or c)
  rwa [← heq] at hall

/-! ## Attributes -/

/-- The attributes of a start tag and its end. -/
theorem Making.attributes {as : List (String × String)} (hself : tag.selfClosing = false)
    (hname : ∀ a ∈ as, isName a.1 = true) (hdistinct : (as.map Prod.fst).Nodup)
    (hnew : ∀ x ∈ tag.attributes, ∀ a ∈ as, Text.sameLetters x.key.value a.1 = false)
    (hstart : tag.extent = l.between j i) (h : Making none false ts us) :
    Making (some (.startTag tag)) false (tagTokens l i as ++ ts)
      (.startTag { tag with
        attributes := tag.attributes ++ (tagAttributes l i as).toArray
        extent := l.between j (i + byteLength (printAttributes as) + 1) } :: us) := by
  induction as generalizing i tag with
  | nil =>
    have hclose := Making.tagClose false (t := l.token ⟨.tagClose, i, ""⟩ (i + 1))
      (u := .startTag tag) rfl rfl (fun _ heq => OpenUnit.startTag.inj heq ▸ hself) h
    rw [tagAttributes, Array.append_empty]
    simp only [OpenUnit.extend, hstart] at hclose
    exact hclose
  | cons a as ih =>
    obtain ⟨ha, hname⟩ := List.forall_mem_cons.1 hname
    rw [List.map_cons, List.nodup_cons] at hdistinct
    have hlength : i + byteLength (printAttributes (a :: as)) =
        attributeStop i a + byteLength (printAttributes as) := by
      rw [← add_printAttribute]
      simp [printAttributes, Nat.add_assoc]
    rw [hlength]
    have hpush : ∀ x : TagAttribute, tag.attributes ++ (x :: tagAttributes l (attributeStop i a)
        as).toArray = tag.attributes.push x ++ (tagAttributes l (attributeStop i a) as).toArray :=
      fun x => Array.ext' (by simp)
    rw [tagAttributes, hpush]
    refine .tagPart (.inl rfl) rfl (.identifier rfl
      (fun x hx => hnew x hx a (List.mem_cons_self ..)) (.tagPart (.inr rfl) rfl
        (.literal rfl rfl (ih hself hname hdistinct.2 (fun x hx a' ha' => ?_) ?_))))
    · rcases Array.mem_push.1 hx with hx | rfl
      · exact hnew x hx a' (List.mem_cons_of_mem a ha')
      · have hne : a.1 ≠ a'.1 := fun heq => hdistinct.1 (List.mem_map.2 ⟨a', ha', heq.symm⟩)
        rw [Text.sameLetters]
        show (a.1.toLower == a'.1.toLower) = false
        rw [toLower_of_isName ha, toLower_of_isName (hname a' ha')]
        simpa using hne
    · show ((((tag.extent.through _).through _).through _).through _) = _
      rw [hstart]
      rfl

/-! ## Forests -/

/-- The start tag of an element. -/
theorem BehindText.element {name : String} {as : List (String × String)}
    (hname : ∀ a ∈ as, isName a.1 = true) (hdistinct : (as.map Prod.fst).Nodup)
    (h : Making none false ts us) :
    BehindText (l.token ⟨.tagOpen, i, name⟩ (i + 1 + bytes name) ::
        (tagTokens l (i + 1 + bytes name) as ++ ts))
      (.startTag (startTagAt l i name as) :: us) := by
  refine .openTag (fun a => rfl) ?_
  have hattributes : Making (some (.startTag ⟨name, false, #[], l.between i (i + 1 + bytes name)⟩))
      false (tagTokens l (i + 1 + bytes name) as ++ ts) _ :=
    .attributes rfl hname hdistinct (fun x hx => absurd hx (by simp)) rfl h
  rw [startTagAt, add_printStartTag]
  rw [Array.empty_append] at hattributes
  exact hattributes

/-- The end tag of an element. -/
theorem BehindText.endTag {name : String} (h : Making none false ts us) :
    BehindText (l.token ⟨.endTagOpen, i, name⟩ (i + 2 + bytes name) ::
        (tagTokens l (i + 2 + bytes name) [] ++ ts))
      (.endTag (endTagAt l i name) :: us) := by
  refine .openTag (fun a => rfl) ?_
  have hclose := Making.tagClose false
    (t := l.token ⟨.tagClose, i + 2 + bytes name, ""⟩ (i + 2 + bytes name + 1))
    (u := .endTag ⟨name, l.between i (i + 2 + bytes name)⟩) rfl rfl nofun h
  rw [endTagAt, add_printEndTag]
  exact hclose

/-- The units of a forest come first, behind a tag.  They do so behind a text as well, when the
forest does not start with one. -/
theorem BehindText.forest {f : Forest} {parent : Option String} (hf : f.WellFormed parent)
    (h : BehindText ts us) :
    Making none false (f.tokens l i ++ ts) (f.units l i ++ us) ∧
      (f.startsWithText = false → BehindText (f.tokens l i ++ ts) (f.units l i ++ us)) := by
  induction f generalizing i ts us parent with
  | nil => exact ⟨h.making, fun _ => h⟩
  | text value behind ih =>
    obtain ⟨hvalue, hstarts, hbehind⟩ := hf
    refine ⟨?_, fun hstarts => absurd hstarts (by simp [startsWithText])⟩
    rw [Forest.tokens, List.append_assoc]
    exact ((ih hbehind h).2 hstarts).text (isText_eq hvalue).1
  | element name as inside behind ihInside ihBehind =>
    obtain ⟨-, -, has, hdistinct, hinside, hbehind⟩ := hf
    have hopen : BehindText ((Forest.element name as inside behind).tokens l i ++ ts)
        ((Forest.element name as inside behind).units l i ++ us) := by
      have hbehind := (ihBehind hbehind h (i := i + byteLength (printStartTag name as) +
        byteLength inside.print + byteLength (printEndTag name))).1
      have hend : BehindText _ (.endTag (endTagAt l (i + byteLength (printStartTag name as) +
        byteLength inside.print) name) :: _) := .endTag hbehind
      have hinside := (ihInside hinside hend (i := i + byteLength (printStartTag name as))).1
      have hstart : BehindText _ (.startTag (startTagAt l i name as) :: _) := .element
        (fun a ha => (isAttributeName_eq (has a ha).1).1) hdistinct hinside
      simpa [Forest.tokens, Forest.units] using hstart
    exact ⟨hopen.making, fun _ => hopen⟩

/-- The assembler makes the units of a forest from its tokens. -/
theorem yields_units {f : Forest} (hf : f.WellFormed none) (l : Locator) :
    ({} : Assembler).Yields (f.tokens l 0) (f.units l 0) := by
  have hforest := (BehindText.atEnd.forest hf (l := l) (i := 0)).1
  rw [List.append_nil, List.append_nil] at hforest
  exact hforest _ ⟨rfl, rfl, rfl, rfl, rfl, rfl⟩

end Assembler
end TemplateSyntax
