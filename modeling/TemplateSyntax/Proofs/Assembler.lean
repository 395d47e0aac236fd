import TemplateSyntax.Markup.Unit
import TemplateSyntax.Proofs.SpanOrder
import TemplateSyntax.Proofs.TokenStream

/-! # What units are made of

The assembler puts out units that follow each other in the file, and each of them was read from
the tokens that were taken: the names and values of attributes are tokens of their kinds, and the
text of a mustache is that of the tokens between its braces.  `Assembled` says so of the units that
are out and of the unit that may still grow, for each thing that a stream of tokens can stop in the
middle of. -/

namespace TemplateSyntax

variable {taken taken' : List Token} {lo hi floor p : Nat} {a : Assembler} {tok : Token}
  {closing closing' : Prop} {m m' : Mode}

/-! ## Units and their tokens -/

/-- The attribute goes from a name among the tokens to its value, if it has one. -/
structure TagAttribute.ReadFrom (taken : List Token) (x : TagAttribute) : Prop where
  key : x.key ∈ taken ∧ x.key.kind = .identifier
  value : ∀ v, x.value = some v → v ∈ taken ∧ v.kind = .literal
  extent : x.extent = x.key.extent.through (x.value.getD x.key).extent

/-- The tag was opened by a token, and its attributes follow each other in it. -/
structure StartTag.ReadFrom (taken : List Token) (t : StartTag) : Prop where
  opening : ∃ x ∈ taken, x.kind = .tagOpen
  attributes : ∀ x ∈ t.attributes, x.ReadFrom taken
  inOrder : InOrder t.extent.span.start (t.attributes.toList.map fun x => x.extent.span)
    t.extent.span.stop

/-- The tokens between the braces of the mustache are its text. -/
structure Mustache.ReadFrom (taken : List Token) (x : Mustache) : Prop where
  tokens : ∃ pre inside post, taken = pre ++ x.opening :: (inside ++ x.closing :: post) ∧
    inside ≠ [] ∧ (∀ t ∈ inside, t.kind = .text ∨ t.kind = .whitespace) ∧
    x.value = Assembler.joinValues inside.toArray
  opening : x.opening.kind = .interpolationStart
  closing : x.closing.kind = .interpolationEnd
  extent : x.extent = x.opening.extent.through x.closing.extent

/-- Where the parts of a unit come from. -/
def MarkupUnit.ReadFrom (taken : List Token) : MarkupUnit → Prop
  | .startTag t => t.ReadFrom taken
  | .mustache x => x.ReadFrom taken
  | _ => True

theorem TagAttribute.ReadFrom.snoc {x : TagAttribute} (h : x.ReadFrom taken) (tok : Token) :
    x.ReadFrom (taken ++ [tok]) where
  key := ⟨List.mem_append_left _ h.key.1, h.key.2⟩
  value v hv := ⟨List.mem_append_left _ (h.value v hv).1, (h.value v hv).2⟩
  extent := h.extent

theorem StartTag.ReadFrom.snoc {t : StartTag} (h : t.ReadFrom taken) (tok : Token) :
    t.ReadFrom (taken ++ [tok]) where
  opening := h.opening.imp fun _ hx => ⟨List.mem_append_left _ hx.1, hx.2⟩
  attributes x hx := (h.attributes x hx).snoc tok
  inOrder := h.inOrder

/-- The tag reaches to a token behind it. -/
theorem StartTag.ReadFrom.through {t : StartTag} (h : t.ReadFrom taken)
    (hle : t.extent.span.stop ≤ tok.extent.span.stop) (selfClosing : Bool) :
    StartTag.ReadFrom (taken ++ [tok])
      { t with selfClosing, extent := t.extent.through tok.extent } :=
  { h.snoc tok with inOrder := h.inOrder.mono (Nat.le_refl _) hle }

/-- The tag gets one more attribute. -/
theorem StartTag.ReadFrom.push {t : StartTag} (h : t.ReadFrom taken)
    (hp : t.extent.span.stop ≤ tok.extent.span.start)
    (hle : tok.extent.span.start ≤ tok.extent.span.stop) (hk : tok.kind = .identifier) :
    StartTag.ReadFrom (taken ++ [tok])
      { t with
        attributes := t.attributes.push ⟨tok, none, tok.extent⟩
        extent := t.extent.through tok.extent } where
  opening := (h.snoc tok).opening
  attributes x hx := by
    rcases Array.mem_push.1 hx with hx | rfl
    · exact (h.attributes x hx).snoc tok
    · exact ⟨⟨by simp, hk⟩, nofun, rfl⟩
  inOrder := by
    simp only [Array.toList_push, List.map_append, List.map_cons, List.map_nil]
    rw [InOrder.snoc_iff]
    exact ⟨h.inOrder.mono (Nat.le_refl _) hp, hle, Nat.le_refl _⟩

theorem Assembler.giveValue_push (xs : Array TagAttribute) (x : TagAttribute) (tok : Token) :
    giveValue (xs.push x) tok =
      xs.push { x with value := some tok, extent := x.extent.through tok.extent } := by
  apply Array.ext'
  rw [giveValue, Array.toList_modify, Array.toList_push, Array.toList_push, Array.size_push,
    Nat.add_sub_cancel, List.modify_eq_take_drop]
  simp

/-- The last attribute of the tag gets a value. -/
theorem StartTag.ReadFrom.giveValue {t : StartTag} (h : t.ReadFrom taken)
    (hp : t.extent.span.stop ≤ tok.extent.span.start)
    (hle : tok.extent.span.start ≤ tok.extent.span.stop) (hk : tok.kind = .literal) :
    StartTag.ReadFrom (taken ++ [tok])
      { t with
        attributes := Assembler.giveValue t.attributes tok
        extent := t.extent.through tok.extent } := by
  have hstop := Nat.le_trans hp hle
  by_cases hsize : t.attributes.size = 0
  · have hnil : Assembler.giveValue t.attributes tok = t.attributes := by
      rw [Array.size_eq_zero_iff.1 hsize]
      rfl
    rw [hnil]
    exact h.through hstop t.selfClosing
  · obtain ⟨xs, x, hxs⟩ := Array.eq_push_of_size_ne_zero hsize
    have hin := h.inOrder
    rw [hxs, Array.toList_push, List.map_append, List.map_singleton, InOrder.snoc_iff] at hin
    have hx := h.attributes x (hxs ▸ Array.mem_push_self)
    refine ⟨(h.snoc tok).opening, fun y hy => ?_, ?_⟩
    · rw [hxs, Assembler.giveValue_push, Array.mem_push] at hy
      rcases hy with hy | rfl
      · exact (h.attributes y (hxs ▸ Array.mem_push_of_mem x hy)).snoc tok
      · refine ⟨(hx.snoc tok).key, fun v hv => ?_, ?_⟩
        · obtain rfl := Option.some.inj hv
          exact ⟨by simp, hk⟩
        · rw [hx.extent]
          rfl
    · rw [hxs, Assembler.giveValue_push, Array.toList_push, List.map_append, List.map_singleton,
        InOrder.snoc_iff]
      exact ⟨hin.1, Nat.le_trans hin.2.1 (Nat.le_trans hin.2.2 hstop), Nat.le_refl _⟩

theorem Mustache.ReadFrom.snoc {x : Mustache} (h : x.ReadFrom taken) (tok : Token) :
    x.ReadFrom (taken ++ [tok]) := by
  obtain ⟨pre, inside, post, rfl, hne, hk, hv⟩ := h.tokens
  exact { h with tokens := ⟨pre, inside, post ++ [tok], by simp, hne, hk, hv⟩ }

theorem MarkupUnit.ReadFrom.snoc {u : MarkupUnit} (h : u.ReadFrom taken) (tok : Token) :
    u.ReadFrom (taken ++ [tok]) := by
  cases u with
  | startTag t => exact StartTag.ReadFrom.snoc h tok
  | mustache x => exact Mustache.ReadFrom.snoc h tok
  | endTag t | text t => trivial

/-- The units follow each other between two offsets.  A start tag is among them only if
`closing`. -/
structure UnitsIn (closing : Prop) (taken : List Token) (lo : Nat) (us : List MarkupUnit)
    (hi : Nat) : Prop where
  inOrder : InOrder lo (us.map fun u => u.extent.span) hi
  readFrom : ∀ u ∈ us, u.ReadFrom taken
  closed : ∀ t, .startTag t ∈ us → closing

namespace UnitsIn

theorem nil (closing : Prop) (taken : List Token) (h : lo ≤ hi) : UnitsIn closing taken lo [] hi :=
  ⟨h, by simp, by simp⟩

/-- One more unit behind the others. -/
theorem snoc {us : List MarkupUnit} {u : MarkupUnit} (h : UnitsIn closing taken lo us floor)
    (hu : u.ReadFrom taken) (hfloor : floor ≤ u.extent.span.start)
    (hle : u.extent.span.start ≤ u.extent.span.stop) (hc : ∀ t, u = .startTag t → closing) :
    UnitsIn closing taken lo (us ++ [u]) u.extent.span.stop where
  inOrder := by
    rw [List.map_append, List.map_singleton, InOrder.snoc_iff]
    exact ⟨h.inOrder.mono (Nat.le_refl _) hfloor, hle, Nat.le_refl _⟩
  readFrom v hv := by
    rcases List.mem_append.1 hv with hv | hv
    · exact h.readFrom v hv
    · rw [List.mem_singleton.1 hv]
      exact hu
  closed t ht := by
    rcases List.mem_append.1 ht with ht | ht
    · exact h.closed t ht
    · exact hc t (List.mem_singleton.1 ht).symm

theorem taking {us : List MarkupUnit} (h : UnitsIn closing taken lo us hi) (tok : Token) :
    UnitsIn closing (taken ++ [tok]) lo us hi :=
  { h with readFrom := fun u hu => (h.readFrom u hu).snoc tok }

end UnitsIn

/-! ## The state of an assembler -/

/-- The units that are out reach up to `floor`, and nothing that was relied on failed. -/
structure Outputs (closing : Prop) (taken : List Token) (lo : Nat) (a : Assembler) (floor : Nat) :
    Prop where
  noBreach : a.breaches = []
  units : UnitsIn closing taken lo a.output.toList floor
  tokens : ∀ t ∈ a.tokens, t ∈ taken

/-- Text that may still grow lies between two offsets. -/
structure TextIn (lo : Nat) (u : Option OpenUnit) (hi : Nat) : Prop where
  le : lo ≤ hi
  run : ∀ u', u = some u' → ∃ t, u' = .text t ∧ lo ≤ t.extent.span.start ∧
    t.extent.span.start ≤ t.extent.span.stop ∧ t.extent.span.stop ≤ hi

/-- The assembler is in content that reaches up to `p`. -/
structure InContent (closing : Prop) (taken : List Token) (lo : Nat) (a : Assembler) (p : Nat) :
    Prop where
  outputs : ∃ floor, Outputs closing taken lo a floor ∧ TextIn floor a.current p
  opening : a.opening = none
  inside : a.inside = #[]

/-- The assembler is in a tag that reaches up to `p`. -/
structure InTag (closing : Prop) (taken : List Token) (lo : Nat) (a : Assembler) (p : Nat) :
    Prop where
  current : ∃ floor u, Outputs closing taken lo a floor ∧ a.current = some u ∧ u.isTag = true ∧
    u.close.ReadFrom taken ∧ floor ≤ u.close.extent.span.start ∧
    u.close.extent.span.start ≤ u.close.extent.span.stop ∧ u.close.extent.span.stop ≤ p
  opening : a.opening = none
  inside : a.inside = #[]

/-- The assembler is behind double braces that are not closed, and has read up to `p`. -/
structure InMustache (closing : Prop) (taken : List Token) (lo : Nat) (a : Assembler) (p : Nat) :
    Prop where
  braces : ∃ o pre floor, a.opening = some o ∧ o.kind = .interpolationStart ∧
    taken = pre ++ o :: a.inside.toList ∧ Outputs closing taken lo a floor ∧
    TextIn floor a.current o.extent.span.start ∧
    o.extent.span.start ≤ o.extent.span.stop ∧ o.extent.span.stop ≤ p ∧
    ∀ t ∈ a.inside, (t.kind = .text ∨ t.kind = .whitespace) ∧
      o.extent.span.stop ≤ t.extent.span.stop ∧ t.extent.span.stop ≤ p

/-- What holds of an assembler behind the tokens `taken`, which stop in the middle of a mode. -/
def Assembled (closing : Prop) (taken : List Token) (lo : Nat) (a : Assembler) :
    Mode → Nat → Prop
  | .content, p => InContent closing taken lo a p
  | .tag, p => InTag closing taken lo a p
  | .interpolation, p => InMustache closing taken lo a p

namespace Outputs

theorem taking (h : Outputs closing taken lo a floor) (tok : Token) :
    Outputs closing (taken ++ [tok]) lo a floor where
  noBreach := h.noBreach
  units := h.units.taking tok
  tokens t ht := List.mem_append_left _ (h.tokens t ht)

/-- The token is put on record. -/
theorem keep (h : Outputs closing (taken ++ [tok]) lo a floor) :
    Outputs closing (taken ++ [tok]) lo (a.keep tok) floor where
  noBreach := h.noBreach
  units := h.units
  tokens t ht := by
    rcases Array.mem_push.1 ht with ht | rfl
    · exact h.tokens t ht
    · simp

/-- A unit is put out. -/
theorem emit {u : MarkupUnit} (h : Outputs closing taken lo a floor) (hu : u.ReadFrom taken)
    (hfloor : floor ≤ u.extent.span.start) (hle : u.extent.span.start ≤ u.extent.span.stop)
    (hc : ∀ t, u = .startTag t → closing) :
    Outputs closing taken lo (a.emit u) u.extent.span.stop where
  noBreach := h.noBreach
  units := by
    simp only [Assembler.emit, Array.toList_push]
    exact h.units.snoc hu hfloor hle hc
  tokens := h.tokens

/-- Text that may still grow is put out. -/
theorem emitCurrent (h : Outputs closing taken lo a floor) (ht : TextIn floor a.current p) :
    ∃ floor', floor' ≤ p ∧ Outputs closing taken lo a.emitCurrent floor' := by
  unfold Assembler.emitCurrent
  split
  · next u hu =>
    obtain ⟨t, rfl, hlo, hle, hhi⟩ := ht.run u hu
    exact ⟨t.extent.span.stop, hhi, emit (a := { a with current := none })
      ⟨h.noBreach, h.units, h.tokens⟩ trivial hlo hle (by simp [OpenUnit.close])⟩
  · exact ⟨floor, ht.le, h⟩

/-- Start tags are out only if `closing`, and none are out. -/
theorem reset (h : Outputs closing taken lo a floor) (ha : a.output = #[]) :
    Outputs closing' taken lo a floor :=
  { h with
    units := by
      rw [ha]
      exact .nil _ _ h.units.inOrder.le }

end Outputs

namespace Assembler

theorem emitCurrent_current (a : Assembler) : a.emitCurrent.current = none := by
  unfold emitCurrent
  split
  · rfl
  · next h => exact h

theorem emitCurrent_opening (a : Assembler) : a.emitCurrent.opening = a.opening := by
  unfold emitCurrent
  split <;> rfl

theorem emitCurrent_inside (a : Assembler) : a.emitCurrent.inside = a.inside := by
  unfold emitCurrent
  split <;> rfl

theorem commit_current (a : Assembler) : a.commit.current = none := emitCurrent_current _

theorem commit_of_opening (h : a.opening = none) :
    a.commit = { a.emitCurrent with attributeOpen := false } := by
  unfold commit flushInterpolation
  rw [h]

end Assembler

theorem TextIn.inTag_eq_false (h : TextIn lo a.current hi) : a.inTag = false := by
  cases hc : a.current with
  | none => simp [Assembler.inTag, hc]
  | some u =>
    obtain ⟨t, rfl, -⟩ := h.run u hc
    simp [Assembler.inTag, hc, OpenUnit.isTag]

theorem TextIn.none (h : lo ≤ hi) : TextIn lo none hi := ⟨h, nofun⟩

theorem TextIn.raise {u : Option OpenUnit} (h : TextIn lo u p) (hp : p ≤ hi) : TextIn lo u hi := by
  refine ⟨Nat.le_trans h.le hp, fun u' hu => ?_⟩
  obtain ⟨t, ht, hlo, hle, hhi⟩ := h.run u' hu
  exact ⟨t, ht, hlo, hle, Nat.le_trans hhi hp⟩

/-! ## Content -/

namespace InContent

theorem taking (h : InContent closing taken lo a p) (tok : Token) :
    InContent closing (taken ++ [tok]) lo a p := by
  obtain ⟨floor, ho, ht⟩ := h.outputs
  exact { h with outputs := ⟨floor, ho.taking tok, ht⟩ }

theorem keep (h : InContent closing (taken ++ [tok]) lo a p) :
    InContent closing (taken ++ [tok]) lo (a.keep tok) p := by
  obtain ⟨floor, ho, ht⟩ := h.outputs
  exact ⟨⟨floor, ho.keep, ht⟩, h.opening, h.inside⟩

theorem raise (h : InContent closing taken lo a p) (hp : p ≤ hi) :
    InContent closing taken lo a hi := by
  obtain ⟨floor, ho, ht⟩ := h.outputs
  exact { h with outputs := ⟨floor, ho, ht.raise hp⟩ }

theorem commit (h : InContent closing taken lo a p) : InContent closing taken lo a.commit p := by
  obtain ⟨floor, ho, ht⟩ := h.outputs
  obtain ⟨floor', hle, ho'⟩ := ho.emitCurrent ht
  rw [Assembler.commit_of_opening h.opening]
  refine ⟨⟨floor', ⟨ho'.noBreach, ho'.units, ho'.tokens⟩, ?_⟩, ?_, ?_⟩
  · rw [Assembler.emitCurrent_current]
    exact .none hle
  · exact a.emitCurrent_opening.trans h.opening
  · exact a.emitCurrent_inside.trans h.inside

/-- Text behind what was put out may grow. -/
theorem setText (h : InContent closing taken lo a p) {r : TextRun}
    (hp : p ≤ r.extent.span.start) (hle : r.extent.span.start ≤ r.extent.span.stop)
    (hhi : r.extent.span.stop ≤ hi) :
    InContent closing taken lo { a with current := some (.text r) } hi := by
  obtain ⟨floor, ho, ht⟩ := h.outputs
  refine { h with outputs := ⟨floor, ⟨ho.noBreach, ho.units, ho.tokens⟩, ?_, fun u hu => ?_⟩ }
  · exact Nat.le_trans ht.le (Nat.le_trans hp (Nat.le_trans hle hhi))
  · obtain rfl := Option.some.inj hu
    exact ⟨r, rfl, Nat.le_trans ht.le hp, hle, hhi⟩

/-- Text is appended, or starts behind other text. -/
theorem text (h : InContent closing taken lo a p) (hp : p ≤ tok.extent.span.start)
    (hle : tok.extent.span.start ≤ tok.extent.span.stop) :
    InContent closing taken lo (a.text tok) tok.extent.span.stop := by
  have hfresh := h.commit.setText (r := ⟨tok.value, tok.extent⟩) hp hle (Nat.le_refl _)
  unfold Assembler.text
  rw [if_neg (by simp [h.opening])]
  dsimp only
  split
  · next t hc =>
    split
    · obtain ⟨floor, ho, ht⟩ := h.outputs
      obtain ⟨t', ht', hlo, hle', hhi⟩ := ht.run _ hc
      obtain rfl := OpenUnit.text.inj ht'
      have hstop : t.extent.span.start ≤ tok.extent.span.stop :=
        Nat.le_trans hle' (Nat.le_trans hhi (Nat.le_trans hp hle))
      refine { h with outputs := ⟨floor, ⟨ho.noBreach, ho.units, ho.tokens⟩, ?_, ?_⟩ }
      · exact Nat.le_trans hlo hstop
      · intro u hu
        obtain rfl := Option.some.inj hu
        exact ⟨_, rfl, hlo, hstop, Nat.le_refl _⟩
    · exact hfresh
  · exact hfresh

/-- A tag starts. -/
theorem startTag (h : InContent closing (taken ++ [tok]) lo a p) {u : OpenUnit}
    (hu : u.isTag = true) (hr : u.close.ReadFrom (taken ++ [tok]))
    (he : u.close.extent = tok.extent) (hp : p ≤ tok.extent.span.start)
    (hle : tok.extent.span.start ≤ tok.extent.span.stop) :
    InTag closing (taken ++ [tok]) lo (a.startTag tok u) tok.extent.span.stop := by
  have hc := h.keep.commit
  obtain ⟨floor, ho, ht⟩ := hc.outputs
  refine ⟨⟨floor, u, ⟨ho.noBreach, ho.units, ho.tokens⟩, rfl, hu, hr, ?_⟩, hc.opening, hc.inside⟩
  rw [he]
  exact ⟨Nat.le_trans ht.le hp, hle, Nat.le_refl _⟩

/-- Double braces open. -/
theorem openBraces (h : InContent closing (taken ++ [tok]) lo a p)
    (hk : tok.kind = .interpolationStart) (hp : p ≤ tok.extent.span.start)
    (hle : tok.extent.span.start ≤ tok.extent.span.stop) :
    InMustache closing (taken ++ [tok]) lo (a.interpolationStart tok) tok.extent.span.stop := by
  have hset : ∀ b, InContent closing (taken ++ [tok]) lo b p →
      InMustache closing (taken ++ [tok]) lo { b with opening := some tok }
        tok.extent.span.stop := by
    intro b hb
    obtain ⟨floor, ho, ht⟩ := hb.outputs
    refine ⟨tok, taken, floor, rfl, hk, ?_, ⟨ho.noBreach, ho.units, ho.tokens⟩, ht.raise hp, hle,
      Nat.le_refl _, ?_⟩
    · simp [hb.inside]
    · simp [hb.inside]
  have hcommit : ∀ separated : Bool, InContent closing (taken ++ [tok]) lo
      (if separated then (a.keep tok).commit else a.keep tok) p := by
    intro separated
    cases separated
    · exact h.keep
    · exact h.keep.commit
  unfold Assembler.interpolationStart
  dsimp only
  rw [if_neg (by simp [Assembler.keep, h.opening])]
  exact hset _ (hcommit _)

end InContent

/-! ## Tags -/

namespace InTag

theorem commit (h : InTag closing taken lo a p) (hc : closing) :
    InContent closing taken lo a.commit p := by
  obtain ⟨floor, u, ho, hcur, -, hr, hlo, hle, hhi⟩ := h.current
  have hemit : a.emitCurrent = { a with current := none }.emit u.close := by
    unfold Assembler.emitCurrent
    rw [hcur]
  have ho' := Outputs.emit (a := { a with current := none }) ⟨ho.noBreach, ho.units, ho.tokens⟩ hr
    hlo hle fun _ _ => hc
  rw [Assembler.commit_of_opening h.opening, hemit]
  exact ⟨⟨_, ⟨ho'.noBreach, ho'.units, ho'.tokens⟩, .none hhi⟩, h.opening, h.inside⟩

/-- A token belongs to the tag. -/
theorem grow (h : InTag closing taken lo a p) (hp : p ≤ tok.extent.span.start)
    (hle : tok.extent.span.start ≤ tok.extent.span.stop) {u v : OpenUnit}
    (hc : a.current = some u) (hu : v.isTag = true) (hr : v.close.ReadFrom (taken ++ [tok]))
    (he : v.close.extent = u.close.extent.through tok.extent) (b : Bool)
    (ds : Array Diagnostic) :
    InTag closing (taken ++ [tok]) lo
      { a.keep tok with current := some v, attributeOpen := b, diagnostics := ds }
      tok.extent.span.stop := by
  obtain ⟨floor, w, ho, hcw, -, -, hlo, hle', hhi⟩ := h.current
  obtain rfl : w = u := Option.some.inj (hcw.symm.trans hc)
  have ho' := (ho.taking tok).keep
  refine ⟨⟨floor, v, ⟨ho'.noBreach, ho'.units, ho'.tokens⟩, rfl, hu, hr, ?_⟩, h.opening, h.inside⟩
  rw [he]
  exact ⟨hlo, Nat.le_trans hle' (Nat.le_trans hhi (Nat.le_trans hp hle)), Nat.le_refl _⟩

/-- What may still grow is a tag that reaches up to `p`. -/
theorem cases (h : InTag closing taken lo a p) :
    (∃ t, a.current = some (.startTag t) ∧ t.ReadFrom taken ∧ t.extent.span.stop ≤ p) ∨
      (∃ t, a.current = some (.endTag t)) := by
  obtain ⟨floor, u, -, hc, hu, hr, -, -, hhi⟩ := h.current
  cases u with
  | startTag t => exact .inl ⟨t, hc, hr, hhi⟩
  | endTag t => exact .inr ⟨t, hc⟩
  | text t => simp [OpenUnit.isTag] at hu

section
variable (hp : p ≤ tok.extent.span.start) (hle : tok.extent.span.start ≤ tok.extent.span.stop)
include hp hle

/-- A token belongs to a start tag. -/
theorem growStart (h : InTag closing taken lo a p) {t t' : StartTag}
    (hc : a.current = some (.startTag t)) (hr : t'.ReadFrom (taken ++ [tok]))
    (he : t'.extent = t.extent.through tok.extent) (b : Bool) (ds : Array Diagnostic) :
    InTag closing (taken ++ [tok]) lo
      { a.keep tok with current := some (.startTag t'), attributeOpen := b, diagnostics := ds }
      tok.extent.span.stop :=
  h.grow hp hle hc (v := .startTag t') rfl hr he b ds

/-- A token belongs to an end tag. -/
theorem growEnd (h : InTag closing taken lo a p) {t : EndTag}
    (hc : a.current = some (.endTag t)) (b : Bool) (ds : Array Diagnostic) :
    InTag closing (taken ++ [tok]) lo
      { a.keep tok with
        current := some (OpenUnit.extend tok (.endTag t)), attributeOpen := b, diagnostics := ds }
      tok.extent.span.stop :=
  h.grow hp hle hc (v := OpenUnit.extend tok (.endTag t)) rfl trivial rfl b ds

/-- A token that carries nothing. -/
theorem tagPart (h : InTag closing taken lo a p) :
    InTag closing (taken ++ [tok]) lo (a.tagPart tok) tok.extent.span.stop := by
  unfold Assembler.tagPart
  rcases h.cases with ⟨t, hc, hr, hhi⟩ | ⟨t, hc⟩
  · have hstop := Nat.le_trans hhi (Nat.le_trans hp hle)
    rw [hc]
    exact h.growStart hp hle hc (hr.through hstop t.selfClosing) rfl _ _
  · rw [hc]
    exact h.growEnd hp hle hc _ _

/-- The name of an attribute. -/
theorem identifier (h : InTag closing taken lo a p) (hk : tok.kind = .identifier) :
    InTag closing (taken ++ [tok]) lo (a.identifier tok) tok.extent.span.stop := by
  unfold Assembler.identifier
  dsimp only
  rcases h.cases with ⟨t, hc, hr, hhi⟩ | ⟨t, hc⟩
  · have hpush := hr.push (Nat.le_trans hhi hp) hle hk
    rw [show (a.keep tok).current = _ from hc]
    dsimp only
    split
    all_goals exact h.growStart hp hle hc hpush rfl _ _
  · rw [show (a.keep tok).current = _ from hc]
    exact h.growEnd hp hle hc _ _

/-- The value of an attribute. -/
theorem literal (h : InTag closing taken lo a p) (hk : tok.kind = .literal) :
    InTag closing (taken ++ [tok]) lo (a.literal tok) tok.extent.span.stop := by
  unfold Assembler.literal
  dsimp only
  rcases h.cases with ⟨t, hc, hr, hhi⟩ | ⟨t, hc⟩
  · have hstop := Nat.le_trans hhi (Nat.le_trans hp hle)
    rw [show (a.keep tok).current = _ from hc]
    refine h.growStart hp hle hc ?_ rfl _ _
    split
    · exact hr.giveValue (Nat.le_trans hhi hp) hle hk
    · exact hr.through hstop t.selfClosing
  · rw [show (a.keep tok).current = _ from hc]
    exact h.growEnd hp hle hc _ _

/-- The end of the tag. -/
theorem tagClose (h : InTag closing taken lo a p) (hclose : closing) (selfClosing : Bool) :
    InContent closing (taken ++ [tok]) lo (a.tagClose tok selfClosing) tok.extent.span.stop := by
  unfold Assembler.tagClose
  dsimp only
  rcases h.cases with ⟨t, hc, hr, hhi⟩ | ⟨t, hc⟩
  · have hstop := Nat.le_trans hhi (Nat.le_trans hp hle)
    rw [show (a.keep tok).current = _ from hc]
    exact (h.growStart hp hle hc (hr.through hstop selfClosing) rfl _ _).commit hclose
  · rw [show (a.keep tok).current = _ from hc]
    dsimp only
    split
    all_goals exact (h.growEnd hp hle hc _ _).commit hclose

end

end InTag

/-! ## Mustaches -/

namespace InMustache

/-- Without its braces the assembler is in content in front of them. -/
theorem before (h : InMustache closing taken lo a p) {o : Token} (ho : a.opening = some o) :
    InContent closing taken lo { a with opening := none, inside := #[] } o.extent.span.start := by
  obtain ⟨o', pre, floor, ho', -, -, hout, ht, -⟩ := h.braces
  obtain rfl := Option.some.inj (ho'.symm.trans ho)
  exact ⟨⟨floor, ⟨hout.noBreach, hout.units, hout.tokens⟩, ht⟩, rfl, rfl⟩

/-- The last token behind the braces, or the braces themselves. -/
theorem last_stop (h : InMustache closing taken lo a p) {o : Token} (ho : a.opening = some o) :
    o.extent.span.start ≤ (a.inside.back?.getD o).extent.span.stop ∧
      (a.inside.back?.getD o).extent.span.stop ≤ p := by
  obtain ⟨o', pre, floor, ho', -, -, -, -, hle, hhi, hin⟩ := h.braces
  obtain rfl := Option.some.inj (ho'.symm.trans ho)
  cases hb : a.inside.back? with
  | none => exact ⟨hle, hhi⟩
  | some t =>
    obtain ⟨-, h1, h2⟩ := hin t (Array.mem_of_back? hb)
    exact ⟨Nat.le_trans hle h1, h2⟩

/-- A mustache that is not closed is text. -/
theorem flush (h : InMustache closing taken lo a p) :
    InContent closing taken lo a.flushInterpolation p := by
  obtain ⟨o, pre, floor, ho, -⟩ := h.braces
  have hb := h.before ho
  obtain ⟨hlo, hhi⟩ := h.last_stop ho
  unfold Assembler.flushInterpolation
  rw [ho]
  dsimp only
  split
  · next t hc =>
    obtain ⟨floor', hout, ht⟩ := hb.outputs
    obtain ⟨t', ht', h1, h2, h3⟩ := ht.run _ hc
    obtain rfl := OpenUnit.text.inj ht'
    have hle : t.extent.span.start ≤ (a.inside.back?.getD o).extent.span.stop :=
      Nat.le_trans h2 (Nat.le_trans h3 hlo)
    refine { hb with outputs := ⟨floor', ⟨hout.noBreach, hout.units, hout.tokens⟩, ?_, ?_⟩ }
    · exact Nat.le_trans h1 (Nat.le_trans hle hhi)
    · intro u hu
      obtain rfl := Option.some.inj hu
      exact ⟨_, rfl, h1, hle, hhi⟩
  · have hc := hb.commit
    rw [Assembler.commit_of_opening hb.opening] at hc
    have hopen := hc.setText (r := ⟨o.value ++ Assembler.joinValues a.inside,
      o.extent.through (a.inside.back?.getD o).extent⟩) (Nat.le_refl _) hlo hhi
    obtain ⟨floor', hout, ht⟩ := hopen.outputs
    exact ⟨⟨floor', ⟨hout.noBreach, hout.units, hout.tokens⟩, ht⟩, hopen.opening, hopen.inside⟩

/-- Text behind the braces. -/
theorem text (h : InMustache closing taken lo a p)
    (hk : tok.kind = .text ∨ tok.kind = .whitespace) (hp : p ≤ tok.extent.span.start)
    (hle : tok.extent.span.start ≤ tok.extent.span.stop) :
    InMustache closing (taken ++ [tok]) lo ((a.keep tok).text tok) tok.extent.span.stop := by
  obtain ⟨o, pre, floor, ho, hko, htaken, hout, ht, h1, h2, hin⟩ := h.braces
  have hkeep := (hout.taking tok).keep
  have hstop := Nat.le_trans hp hle
  have heq : (a.keep tok).text tok = { a.keep tok with inside := a.inside.push tok } :=
    if_pos (by simp [Assembler.keep, ho])
  rw [heq]
  refine ⟨o, pre, floor, ho, hko, by simp [htaken], ⟨hkeep.noBreach, hkeep.units, hkeep.tokens⟩,
    ht, h1, Nat.le_trans h2 hstop, fun t hmem => ?_⟩
  rcases Array.mem_push.1 hmem with hmem | rfl
  · obtain ⟨hkt, h3, h4⟩ := hin t hmem
    exact ⟨hkt, h3, Nat.le_trans h4 hstop⟩
  · exact ⟨hk, Nat.le_trans h2 hstop, Nat.le_refl _⟩

/-- Double braces close. -/
theorem close (h : InMustache closing taken lo a p) (hk : tok.kind = .interpolationEnd)
    (hp : p ≤ tok.extent.span.start) (hle : tok.extent.span.start ≤ tok.extent.span.stop) :
    InContent closing (taken ++ [tok]) lo (a.interpolationEnd tok) tok.extent.span.stop := by
  obtain ⟨o, pre, floor, ho, hko, htaken, -, -, h1, h2, hin⟩ := h.braces
  have hb := ((h.before ho).taking tok).keep
  unfold Assembler.interpolationEnd
  dsimp only
  rw [show (a.keep tok).opening = some o from ho]
  dsimp only
  split
  · next hempty =>
    -- braces with nothing in between are text
    obtain ⟨floor', hout, ht⟩ := hb.outputs
    have hopen : InContent closing (taken ++ [tok]) lo { a.keep tok with opening := none }
        o.extent.span.start :=
      ⟨⟨floor', ⟨hout.noBreach, hout.units, hout.tokens⟩, ht⟩, rfl, by
        simpa [Assembler.keep] using hempty⟩
    exact (hopen.text (Nat.le_refl _) h1).text (Nat.le_trans h2 hp) hle
  · next hempty =>
    have hc := hb.commit
    obtain ⟨floor', hout, ht⟩ := hc.outputs
    have hne : a.inside.toList ≠ [] := by simpa [Assembler.keep] using hempty
    have hfrom : Mustache.ReadFrom (taken ++ [tok]) ⟨Assembler.joinValues a.inside, o, tok,
        o.extent.through tok.extent⟩ :=
      ⟨⟨pre, a.inside.toList, [], by simp [htaken], hne,
        fun t ht => (hin t (by simpa using ht)).1, rfl⟩, hko, hk, rfl⟩
    have hstop : o.extent.span.start ≤ tok.extent.span.stop :=
      Nat.le_trans h1 (Nat.le_trans h2 (Nat.le_trans hp hle))
    have hemit := hout.emit (u := .mustache ⟨Assembler.joinValues a.inside, o, tok,
      o.extent.through tok.extent⟩) hfrom ht.le hstop (by simp)
    exact ⟨⟨_, hemit, by
      rw [Assembler.emit, Assembler.commit_current]
      exact .none (Nat.le_refl _)⟩, hc.opening, hc.inside⟩

end InMustache

/-! ## Tokens -/

namespace Assembled

/-- Start tags are out only if `closing`, and none are out. -/
theorem reset (h : Assembled closing taken lo a m p) (ha : a.output = #[]) :
    Assembled closing' taken lo a m p := by
  cases m with
  | content =>
    obtain ⟨floor, ho, ht⟩ := InContent.outputs h
    exact { h with outputs := ⟨floor, ho.reset ha, ht⟩ }
  | tag =>
    obtain ⟨floor, u, ho, hu⟩ := InTag.current h
    exact { h with current := ⟨floor, u, ho.reset ha, hu⟩ }
  | interpolation =>
    obtain ⟨o, pre, floor, h1, h2, h3, ho, h4⟩ := InMustache.braces h
    exact ⟨⟨o, pre, floor, h1, h2, h3, ho.reset ha, h4⟩⟩

/-- A token that can come next is taken. -/
theorem process (h : Assembled closing taken lo a m p) (hm : m.after tok.kind = some m')
    (hc : tok.kind = .tagClose ∨ tok.kind = .selfClosingTagClose → closing)
    (hp : p ≤ tok.extent.span.start) (hle : tok.extent.span.start ≤ tok.extent.span.stop) :
    Assembled closing (taken ++ [tok]) lo (a.process tok) m' tok.extent.span.stop := by
  unfold Assembler.process
  cases m with
  | content =>
    have hin : InContent closing (taken ++ [tok]) lo a p := InContent.taking h tok
    cases hk : tok.kind <;> rw [hk] at hm <;> simp only [Mode.after, reduceCtorEq] at hm
    all_goals obtain rfl := Option.some.inj hm
    case bogusComment | comment =>
      obtain ⟨floor, ho, ht⟩ := (hin.raise (Nat.le_trans hp hle)).outputs
      exact ⟨⟨floor, ⟨ho.noBreach, ho.units, ho.tokens⟩, ht⟩, hin.opening, hin.inside⟩
    case tagOpen =>
      exact hin.startTag rfl ⟨⟨tok, by simp, hk⟩, by simp, hle⟩ rfl hp hle
    case endTagOpen => exact hin.startTag rfl trivial rfl hp hle
    case interpolationStart => exact hin.openBraces hk hp hle
    case whitespace =>
      obtain ⟨floor, -, ht⟩ := hin.outputs
      simp only [ht.inTag_eq_false]
      exact hin.keep.text hp hle
    all_goals exact hin.keep.text hp hle
  | tag =>
    have hin : InTag closing taken lo a p := h
    cases hk : tok.kind <;> rw [hk] at hm <;> simp only [Mode.after, reduceCtorEq] at hm
    all_goals obtain rfl := Option.some.inj hm
    case association => exact hin.tagPart hp hle
    case identifier => exact hin.identifier hp hle hk
    case literal => exact hin.literal hp hle hk
    case tagClose => exact hin.tagClose hp hle (hc (.inl hk)) false
    case selfClosingTagClose => exact hin.tagClose hp hle (hc (.inr hk)) true
    case whitespace =>
      obtain ⟨floor, u, -, hcur, hu, -⟩ := hin.current
      simp only [Assembler.inTag, hcur, Option.any_some, hu]
      exact hin.tagPart hp hle
  | interpolation =>
    have hin : InMustache closing taken lo a p := h
    cases hk : tok.kind <;> rw [hk] at hm <;> simp only [Mode.after, reduceCtorEq] at hm
    all_goals obtain rfl := Option.some.inj hm
    case interpolationEnd => exact hin.close hk hp hle
    case text => exact hin.text (.inl hk) hp hle
    case whitespace =>
      obtain ⟨o, pre, floor, -, -, -, -, ht, -⟩ := hin.braces
      simp only [ht.inTag_eq_false]
      exact hin.text (.inr hk) hp hle

/-- At the end of the text everything is put out. -/
theorem commit (h : Assembled closing taken lo a m p) (hc : closing) :
    InContent closing taken lo a.commit p := by
  cases m with
  | content => exact InContent.commit h
  | tag => exact InTag.commit h hc
  | interpolation =>
    have hf : InContent closing taken lo a.flushInterpolation p := InMustache.flush h
    have heq : a.commit = a.flushInterpolation.commit := by
      rw [Assembler.commit_of_opening hf.opening]
      rfl
    rw [heq]
    exact hf.commit

/-- The assembler in front of a text. -/
theorem start (lo : Nat) : Assembled closing [] lo {} .content lo :=
  ⟨⟨lo, ⟨rfl, .nil _ _ (Nat.le_refl lo), by simp⟩, .none (Nat.le_refl lo)⟩, rfl, rfl⟩

end Assembled

end TemplateSyntax
