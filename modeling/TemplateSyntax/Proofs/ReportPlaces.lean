import TemplateSyntax.Proofs.OutlineReports
import TemplateSyntax.Proofs.Takes

/-! # Where the outline reports

The assembler and the tree builder report where tokens start: the assembler at the token that it takes,
and the tree builder at the name of an attribute and at an end tag. -/

namespace TemplateSyntax

variable {P : Nat → Prop}

/-- Where the tree builder may report something about a unit. -/
def MarkupUnit.marks : MarkupUnit → List Nat
  | .startTag t => t.attributes.toList.map fun x => x.key.extent.span.start
  | .endTag t => [t.extent.span.start]
  | _ => []

/-! ## The assembler -/

namespace Assembler

variable {a a' : Assembler} {t : Token}

/-- What was reported stands at marked offsets, and so does what may be reported about the units. -/
structure Marked (P : Nat → Prop) (a : Assembler) : Prop where
  diagnostics : ∀ d ∈ a.diagnostics, P d.offset
  current : ∀ u, a.current = some u → ∀ i ∈ u.close.marks, P i
  output : ∀ u ∈ a.output, ∀ i ∈ u.marks, P i

namespace Marked

theorem keep (h : a.Marked P) (t : Token) : (a.keep t).Marked P :=
  ⟨h.diagnostics, h.current, h.output⟩

theorem report (h : a.Marked P) (cause : Cause) (ht : P t.extent.span.start) :
    (a.report cause t).Marked P := by
  refine ⟨fun d hd => ?_, h.current, h.output⟩
  rcases Array.mem_push.1 hd with hd | rfl
  · exact h.diagnostics d hd
  · exact ht

/-- A change of the unit that may still grow. -/
theorem withCurrent (h : a.Marked P) {u : OpenUnit} (hu : ∀ i ∈ u.close.marks, P i) :
    ({ a with current := some u } : Assembler).Marked P :=
  ⟨h.diagnostics, fun _ hv => Option.some.inj hv ▸ hu, h.output⟩

/-- There is nothing to report about text. -/
theorem withText (h : a.Marked P) (run : TextRun) :
    ({ a with current := some (.text run) } : Assembler).Marked P :=
  h.withCurrent (by simp [OpenUnit.close, MarkupUnit.marks])

theorem emitCurrent (h : a.Marked P) : a.emitCurrent.Marked P := by
  unfold Assembler.emitCurrent
  split
  · next u hu =>
    refine ⟨h.diagnostics, nofun, fun v hv => ?_⟩
    rcases Array.mem_push.1 hv with hv | rfl
    · exact h.output v hv
    · exact h.current u hu
  · exact h

theorem flushInterpolation (h : a.Marked P) : a.flushInterpolation.Marked P := by
  have hclosed : ({ a with opening := none, inside := #[] } : Assembler).Marked P :=
    ⟨h.diagnostics, h.current, h.output⟩
  unfold Assembler.flushInterpolation
  split
  · exact h
  · dsimp only
    split
    · exact hclosed.withText _
    · exact hclosed.emitCurrent.withText _

theorem commit (h : a.Marked P) : a.commit.Marked P :=
  have hall := h.flushInterpolation.emitCurrent
  ⟨hall.diagnostics, hall.current, hall.output⟩

theorem startTag (h : a.Marked P) (t : Token) {u : OpenUnit} (hu : ∀ i ∈ u.close.marks, P i) :
    (a.startTag t u).Marked P :=
  (h.keep t).commit.withCurrent hu

theorem marks_extend (t : Token) (u : OpenUnit) : (u.extend t).close.marks = u.close.marks := by
  cases u <;> rfl

theorem tagPart (h : a.Marked P) (t : Token) : (a.tagPart t).Marked P := by
  unfold Assembler.tagPart
  split
  · next u hu =>
    split
    · exact (h.withCurrent (by rw [marks_extend]; exact h.current u hu)).keep t
    · exact h.keep t
  · exact h.keep t

theorem text (h : a.Marked P) (t : Token) : (a.text t).Marked P := by
  unfold Assembler.text
  dsimp only
  split
  · exact ⟨h.diagnostics, h.current, h.output⟩
  · split
    · split
      · exact h.withText _
      · exact h.commit.withText _
    · exact h.commit.withText _

theorem identifier (h : a.Marked P) (ht : P t.extent.span.start) : (a.identifier t).Marked P := by
  have hkeep := h.keep t
  unfold Assembler.identifier
  dsimp only
  split
  · next tag htag =>
    have hold := hkeep.current _ htag
    have hmarks : ∀ i ∈ (OpenUnit.startTag { tag with
        attributes := tag.attributes.push ⟨t, none, t.extent⟩
        extent := tag.extent.through t.extent }).close.marks, P i := by
      intro i hi
      simp only [OpenUnit.close, MarkupUnit.marks, Array.toList_push, List.map_append,
        List.map_singleton, List.mem_append, List.mem_singleton] at hi hold
      rcases hi with hi | rfl
      · exact hold i hi
      · exact ht
    have hset := hkeep.withCurrent hmarks
    have hopen : ({ a.keep t with
        current := some (.startTag { tag with
          attributes := tag.attributes.push ⟨t, none, t.extent⟩
          extent := tag.extent.through t.extent })
        attributeOpen := true } : Assembler).Marked P :=
      ⟨hset.diagnostics, hset.current, hset.output⟩
    split
    · exact hopen.report _ ht
    · exact hopen
  · next tag htag =>
    exact (hkeep.withCurrent (by rw [marks_extend]; exact hkeep.current _ htag)).report _ ht
  · exact ⟨hkeep.diagnostics, hkeep.current, hkeep.output⟩

/-- The value of an attribute changes no name. -/
theorem map_key_giveValue (attributes : Array TagAttribute) (t : Token) :
    (giveValue attributes t).toList.map TagAttribute.key = attributes.toList.map TagAttribute.key := by
  apply List.ext_getElem?
  intro i
  rw [List.getElem?_map, List.getElem?_map, Array.getElem?_toList, Array.getElem?_toList,
    giveValue, Array.getElem?_modify]
  split
  · cases attributes[i]? <;> rfl
  · rfl

theorem keys_giveValue (attributes : Array TagAttribute) (t : Token) :
    ((giveValue attributes t).toList.map fun x => x.key.extent.span.start) =
      attributes.toList.map fun x => x.key.extent.span.start := by
  have hkeys := congrArg (List.map fun key : Token => key.extent.span.start) (map_key_giveValue attributes t)
  rwa [List.map_map, List.map_map] at hkeys

theorem literal (h : a.Marked P) (t : Token) : (a.literal t).Marked P := by
  have hkeep := h.keep t
  unfold Assembler.literal
  dsimp only
  split
  · next tag htag =>
    have hold := hkeep.current _ htag
    have hset := hkeep.withCurrent (u := .startTag { tag with
      attributes := if (a.keep t).attributeOpen then giveValue tag.attributes t else tag.attributes
      extent := tag.extent.through t.extent }) (by
        simp only [OpenUnit.close, MarkupUnit.marks] at hold ⊢
        split
        · rw [keys_giveValue]
          exact hold
        · exact hold)
    exact ⟨hset.diagnostics, hset.current, hset.output⟩
  · next tag htag =>
    exact hkeep.withCurrent (by rw [marks_extend]; exact hkeep.current _ htag)
  · exact ⟨hkeep.diagnostics, hkeep.current, hkeep.output⟩

theorem tagClose (h : a.Marked P) (ht : P t.extent.span.start) (selfClosing : Bool) :
    (a.tagClose t selfClosing).Marked P := by
  have hkeep := h.keep t
  unfold Assembler.tagClose
  dsimp only
  refine Marked.commit ?_
  split
  · next tag htag => exact hkeep.withCurrent fun i hi => hkeep.current _ htag i hi
  · next tag htag =>
    have hset := hkeep.withCurrent (u := OpenUnit.extend t (.endTag tag))
      (by rw [marks_extend]; exact hkeep.current _ htag)
    split
    · exact hset.report _ ht
    · exact hset
  · exact ⟨hkeep.diagnostics, hkeep.current, hkeep.output⟩

theorem interpolationStart (h : a.Marked P) (t : Token) : (a.interpolationStart t).Marked P := by
  have hkeep := h.keep t
  unfold Assembler.interpolationStart
  dsimp only
  generalize a.keep t = a' at hkeep
  have hopened : ∀ separated : Bool,
      ({ (if separated then a'.commit else a') with opening := some t } : Assembler).Marked P := by
    intro separated
    cases separated
    · exact ⟨hkeep.diagnostics, hkeep.current, hkeep.output⟩
    · exact ⟨hkeep.commit.diagnostics, hkeep.commit.current, hkeep.commit.output⟩
  split
  · exact hkeep.text t
  · exact hopened _

theorem interpolationEnd (h : a.Marked P) (t : Token) : (a.interpolationEnd t).Marked P := by
  have hkeep := h.keep t
  unfold Assembler.interpolationEnd
  dsimp only
  generalize a.keep t = a' at hkeep
  split
  · exact hkeep.text t
  · next o _ =>
    split
    · exact Marked.text (Marked.text (a := { a' with opening := none })
        ⟨hkeep.diagnostics, hkeep.current, hkeep.output⟩ o) t
    · have hcommit := Marked.commit (a := { a' with opening := none, inside := #[] })
        ⟨hkeep.diagnostics, hkeep.current, hkeep.output⟩
      refine ⟨hcommit.diagnostics, hcommit.current, fun u hu => ?_⟩
      rcases Array.mem_push.1 hu with hu | rfl
      · exact hcommit.output u hu
      · simp [MarkupUnit.marks]

/-- A token that starts at a marked offset is taken. -/
theorem process (h : a.Marked P) (ht : P t.extent.span.start) : (a.process t).Marked P := by
  unfold Assembler.process
  cases t.kind with
  | comment | bogusComment => exact ⟨h.diagnostics, h.current, h.output⟩
  | tagOpen => exact h.startTag t (by simp [OpenUnit.close, MarkupUnit.marks])
  | endTagOpen => exact h.startTag t (by simpa [OpenUnit.close, MarkupUnit.marks] using ht)
  | identifier => exact h.identifier ht
  | association => exact h.tagPart t
  | literal => exact h.literal t
  | tagClose | selfClosingTagClose => exact h.tagClose ht _
  | interpolationStart => exact h.interpolationStart t
  | interpolationEnd => exact h.interpolationEnd t
  | text | rcdataText | rawText | cdataText => exact (h.keep t).text t
  | whitespace =>
    dsimp only
    split
    · exact h.tagPart t
    · exact (h.keep t).text t

end Marked
end Assembler

/-! ## The tree builder -/

namespace Builder

variable {b b' : Builder}

/-- What was reported stands at marked offsets. -/
def Marked (P : Nat → Prop) (b : Builder) : Prop := ∀ d ∈ b.diagnostics, P d.offset

namespace Marked

theorem report (h : b.Marked P) (cause : Cause) {offset : Nat} (ho : P offset) :
    (b.report cause offset).Marked P := by
  intro d hd
  rcases Array.mem_push.1 hd with hd | rfl
  · exact h d hd
  · exact ho

theorem closeElement (h : b.Marked P) (id : Nat) : (b.closeElement id).Marked P := by
  unfold Builder.closeElement
  dsimp only
  split <;> exact h

theorem closeInnermost (h : b.Marked P) (count : Nat) : (b.closeInnermost count).Marked P := by
  induction count generalizing b with
  | zero => exact h
  | succ count ih =>
    rw [Builder.closeInnermost]
    split
    · next id outer _ => exact ih (Marked.closeElement (b := { b with opened := outer }) h id)
    · exact h

theorem closeImplied (h : b.Marked P) (name : String) : (b.closeImplied name).Marked P := by
  unfold Builder.closeImplied
  split
  · next id outer _ _ _ =>
    split
    · exact Marked.closeElement (b := { b with opened := outer }) h id
    · exact h
  · exact h

theorem checkNamespaces (h : b.Marked P) (ns : Namespace) {attributes : Array PlainAttribute}
    (ha : ∀ x ∈ attributes, P x.key.extent.span.start) :
    (b.checkNamespaces ns attributes).Marked P := by
  unfold Builder.checkNamespaces
  refine Array.foldl_induction (fun _ (b' : Builder) => b'.Marked P) h fun i b' ih => ?_
  split
  · exact ih
  · split
    · exact ih
    · exact ih.report _ (ha _ (Array.getElem_mem _))

theorem scheduleDirectives (h : b.Marked P) (id : Nat) (name : String)
    (attributes : Array PlainAttribute) : (b.scheduleDirectives id name attributes).Marked P := by
  unfold Builder.scheduleDirectives
  split
  · exact h
  · dsimp only
    split <;> exact h

theorem onStartTag (h : b.Marked P) {tag : StartTag}
    (ht : ∀ i ∈ (MarkupUnit.startTag tag).marks, P i) : (b.onStartTag tag).Marked P := by
  have hkeys : ∀ ns, ∀ x ∈ tag.attributes.map (plainAttribute ns), P x.key.extent.span.start := by
    intro ns x hx
    obtain ⟨y, hy, rfl⟩ := Array.mem_map.1 hx
    exact ht _ (List.mem_map_of_mem (Array.mem_toList_iff.2 hy))
  unfold Builder.onStartTag
  dsimp only
  generalize ElementClass.namespaceOf _ tag.rawName.toLower tag = ns
  have hadded : ∀ content extent, (((b.closeImplied tag.rawName.toLower).checkNamespaces ns
      (tag.attributes.map (plainAttribute ns))).addNode content extent).Marked P := fun _ _ =>
    (h.closeImplied _).checkNamespaces ns (hkeys ns)
  split
  · exact ((hadded _ _).scheduleDirectives _ _ _).closeElement _
  · exact (hadded _ _).scheduleDirectives _ _ _

theorem onEndTag (h : b.Marked P) {tag : EndTag} (ht : P tag.extent.span.start) :
    (b.onEndTag tag).Marked P := by
  unfold Builder.onEndTag
  have hclosed : ∀ (tree : Tree) (count : Nat),
      (({ b with tree } : Builder).closeInnermost count).syncNamespace.Marked P :=
    fun tree => Marked.closeInnermost (b := { b with tree }) h
  split
  · exact hclosed _ _
  · exact h.report _ ht

/-- A unit that is marked is taken. -/
theorem onUnit (h : b.Marked P) {u : MarkupUnit} (hu : ∀ i ∈ u.marks, P i) :
    (b.onUnit u).Marked P := by
  have hlogged : (if b.lexer.tracing then b.logged (.pulled b.opened.length u.extent.span)
      else b).Marked P := by
    split <;> exact h
  unfold Builder.onUnit
  dsimp only
  generalize (if b.lexer.tracing then b.logged (.pulled b.opened.length u.extent.span) else b) =
    b₀ at hlogged
  cases u with
  | startTag tag => exact hlogged.onStartTag hu
  | endTag tag => exact hlogged.onEndTag (hu _ (List.mem_singleton.2 rfl))
  | text run | mustache m => exact hlogged

end Marked

/-- What was reported so far, and what may be reported about the units that are not taken yet. -/
structure AllMarked (P : Nat → Prop) (b : Builder) : Prop where
  assembler : b.assembler.Marked P
  builder : b.Marked P

theorem AllMarked.take (h : b.AllMarked P) {t : Token} (ht : P t.extent.span.start) (x : Lexer) :
    (b.take t x).AllMarked P := by
  have hprocess := h.assembler.process ht
  simp only [Builder.take, Builder.drain, Assembler.takeOutput]
  generalize hstart : ({ b with lexer := x, assembler := _ } : Builder) = start
  have hall : start.AllMarked P := hstart ▸
    ⟨⟨hprocess.diagnostics, hprocess.current, fun u hu => absurd hu (Array.not_mem_empty u)⟩,
      h.builder⟩
  refine Array.foldl_induction (fun _ (b' : Builder) => b'.AllMarked P) hall fun i b' ih => ?_
  exact ⟨(onUnit_assembler b' _).symm ▸ ih.assembler,
    ih.builder.onUnit (hprocess.output _ (Array.getElem_mem _))⟩

/-- Whatever tokens are taken, what is reported stands where they start. -/
theorem Takes.marked {ts : List Token} (h : Takes b ts b') (hb : b.AllMarked P)
    (hts : ∀ t ∈ ts, P t.extent.span.start) : b'.AllMarked P := by
  induction h with
  | nothing => exact hb
  | token h hpull ih =>
    rw [List.forall_mem_append, List.forall_mem_singleton] at hts
    exact (ih hts.1).take hts.2 _

theorem allMarked_ofChars (cs : List Char) (l : Locator) (tracing : Bool) :
    (ofChars cs l tracing).AllMarked P :=
  ⟨⟨by simp [ofChars], by simp [ofChars], by simp [ofChars]⟩, by simp [Marked, ofChars]⟩

end Builder
end TemplateSyntax
