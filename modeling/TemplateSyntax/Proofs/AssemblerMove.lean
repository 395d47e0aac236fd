import TemplateSyntax.Proofs.Relocation

/-! # Units of relocated markup

Units are put together from moved tokens as they are from the tokens themselves: the only thing that
is looked up about the place of a token is whether it follows another one.  What was read before stays
in front. -/

namespace TemplateSyntax

/-- The assemblers of two readings, where `before` is what the second one had read before. -/
structure Assembler.Moved (r : Relocation) (a before a' : Assembler) : Prop where
  current : a'.current = a.current.map r.openUnit
  attributeOpen : a'.attributeOpen = a.attributeOpen
  opening : a'.opening = a.opening.map r.token
  inside : a'.inside = a.inside.map r.token
  output : a'.output = a.output.map r.markupUnit
  tokens : a'.tokens = before.tokens ++ a.tokens.map r.token
  comments : a'.comments = before.comments ++ a.comments.map r.token
  diagnostics : a'.diagnostics = before.diagnostics ++ a.diagnostics.map r.diagnostic

namespace Move

variable (m : Move)

theorem close_openUnit (u : OpenUnit) : (m.openUnit u).close = m.markupUnit u.close := by
  cases u <;> rfl

theorem isTag_openUnit (u : OpenUnit) : (m.openUnit u).isTag = u.isTag := by
  cases u <;> rfl

theorem extend_openUnit (u : OpenUnit) (t : Token) :
    (m.openUnit u).extend (m.token t) = m.openUnit (u.extend t) := by
  cases u <;> rfl

theorem joinValues_map_token (ts : Array Token) :
    Assembler.joinValues (ts.map m.token) = Assembler.joinValues ts := by
  unfold Assembler.joinValues
  rw [Array.foldl_map]
  rfl

theorem giveValue_map (xs : Array TagAttribute) (t : Token) :
    Assembler.giveValue (xs.map m.tagAttribute) (m.token t) =
      (Assembler.giveValue xs t).map m.tagAttribute := by
  apply Array.ext'
  unfold Assembler.giveValue
  rw [Array.size_map, Array.toList_modify, Array.toList_map, Array.toList_map, Array.toList_modify]
  generalize xs.size - 1 = i
  induction xs.toList generalizing i with
  | nil => simp
  | cons x xs ih =>
    cases i with
    | zero => rfl
    | succ i => simp only [List.map_cons, List.modify_succ_cons, ih]

end Move

namespace Assembler.Moved

variable {r : Relocation} {before a a' : Assembler}

theorem report (h : a.Moved r before a') (cause : Cause) (t : Token) :
    (a.report cause t).Moved r before (a'.report cause (r.token t)) :=
  { h with
    diagnostics := by
      simp only [Assembler.report, h.diagnostics, Array.map_push, Array.append_push]
      rfl }

theorem breach (h : a.Moved r before a') (x : Breach) :
    (a.breach x).Moved r before (a'.breach x) :=
  { h with }

theorem keep (h : a.Moved r before a') (t : Token) :
    (a.keep t).Moved r before (a'.keep (r.token t)) :=
  { h with tokens := by simp only [Assembler.keep, h.tokens, Array.map_push, Array.append_push] }

theorem emit (h : a.Moved r before a') (u : MarkupUnit) :
    (a.emit u).Moved r before (a'.emit (r.markupUnit u)) :=
  { h with output := by simp only [Assembler.emit, h.output, Array.map_push] }

/-- A change of the unit that may still grow. -/
theorem withCurrent (h : a.Moved r before a') (u : Option OpenUnit) :
    ({ a with current := u } : Assembler).Moved r before
      { a' with current := u.map r.openUnit } :=
  { h with current := rfl }

theorem emitCurrent (h : a.Moved r before a') :
    a.emitCurrent.Moved r before a'.emitCurrent := by
  unfold Assembler.emitCurrent
  rw [h.current]
  cases a.current with
  | none => exact h
  | some u =>
    rw [Option.map_some]
    dsimp only
    rw [r.close_openUnit]
    exact (h.withCurrent none).emit u.close

theorem flushInterpolation (h : a.Moved r before a') :
    a.flushInterpolation.Moved r before a'.flushInterpolation := by
  have hclosed : ∀ u : Option OpenUnit,
      ({ a with current := u, opening := none, inside := #[] } : Assembler).Moved r before
        { a' with current := u.map r.openUnit, opening := none, inside := #[] } := fun u =>
    { h with current := rfl, opening := rfl, inside := Array.map_empty.symm }
  unfold Assembler.flushInterpolation
  rw [h.opening, h.inside]
  cases a.opening with
  | none => exact h
  | some o =>
    have hlast : (a.inside.map r.token).back?.getD (r.token o) =
        r.token (a.inside.back?.getD o) := by
      rw [Array.back?_map, Option.getD_map]
    rw [Option.map_some]
    dsimp only
    rw [hlast, r.joinValues_map_token, h.current]
    cases a.current with
    | none => exact { (hclosed none).emitCurrent with current := rfl }
    | some u =>
      cases u with
      | text t => exact { hclosed none with current := rfl }
      | startTag t => exact { (hclosed (some (.startTag t))).emitCurrent with current := rfl }
      | endTag t => exact { (hclosed (some (.endTag t))).emitCurrent with current := rfl }

theorem commit (h : a.Moved r before a') : a.commit.Moved r before a'.commit :=
  { h.flushInterpolation.emitCurrent with attributeOpen := rfl }

theorem inTag (h : a.Moved r before a') : a'.inTag = a.inTag := by
  unfold Assembler.inTag
  rw [h.current, Option.any_map]
  congr 1
  funext u
  exact r.isTag_openUnit u

theorem startTag (h : a.Moved r before a') (t : Token) (u : OpenUnit) :
    (a.startTag t u).Moved r before (a'.startTag (r.token t) (r.openUnit u)) :=
  (h.keep t).commit.withCurrent (some u)

theorem tagPart (h : a.Moved r before a') (t : Token) :
    (a.tagPart t).Moved r before (a'.tagPart (r.token t)) := by
  unfold Assembler.tagPart
  rw [h.current]
  cases a.current with
  | none => exact h.keep t
  | some u =>
    rw [Option.map_some]
    dsimp only
    rw [r.isTag_openUnit, r.extend_openUnit]
    split
    · exact (h.withCurrent (some (u.extend t))).keep t
    · exact h.keep t

theorem text (h : a.Moved r before a') (t : Token) :
    (a.text t).Moved r before (a'.text (r.token t)) := by
  have hfresh := h.commit.withCurrent (some (.text ⟨t.value, t.extent⟩))
  have hopening : a'.opening.isSome = a.opening.isSome := by rw [h.opening, Option.isSome_map]
  unfold Assembler.text
  rw [hopening]
  split
  · exact { h with
      inside := by
        show a'.inside.push (r.token t) = (a.inside.push t).map r.token
        rw [h.inside, Array.map_push] }
  · rw [h.current]
    cases a.current with
    | none => exact hfresh
    | some u =>
      cases u with
      | startTag _ => exact hfresh
      | endTag _ => exact hfresh
      | text run =>
        have hjoins : (r.textRun run).extent.span.stop = (r.token t).extent.span.start ↔
            run.extent.span.stop = t.extent.span.start := r.offset_inj
        simp only [Option.map_some, Move.openUnit, hjoins]
        split
        · exact h.withCurrent (some (.text ⟨run.value ++ t.value, run.extent.through t.extent⟩))
        · exact hfresh

/-- A change of the unit that may still grow, and of whether its last attribute may. -/
theorem withAttribute (h : a.Moved r before a') (u : Option OpenUnit) (attributeOpen : Bool) :
    ({ a with current := u, attributeOpen } : Assembler).Moved r before
      { a' with current := u.map r.openUnit, attributeOpen } :=
  { h with current := rfl, attributeOpen := rfl }

theorem identifier (h : a.Moved r before a') (t : Token) :
    (a.identifier t).Moved r before (a'.identifier (r.token t)) := by
  have hkeep := h.keep t
  unfold Assembler.identifier
  dsimp only
  rw [hkeep.current]
  cases (a.keep t).current with
  | none => exact hkeep.breach _
  | some u =>
    cases u with
    | text _ => exact hkeep.breach _
    | endTag tag => exact (hkeep.withCurrent (some (OpenUnit.extend t (.endTag tag)))).report _ t
    | startTag tag =>
      have hduplicate : ((r.startTag tag).attributes.any fun x =>
          Text.sameLetters x.key.value (r.token t).value) =
            tag.attributes.any fun x => Text.sameLetters x.key.value t.value := by
        simp only [Move.startTag, Array.any_map]
        rfl
      have hpush : (r.startTag tag).attributes.push ⟨r.token t, none, (r.token t).extent⟩ =
          (tag.attributes.push ⟨t, none, t.extent⟩).map r.tagAttribute := by
        rw [Array.map_push]
        rfl
      have hgrown := hkeep.withAttribute (some (.startTag
        { tag with
          attributes := tag.attributes.push ⟨t, none, t.extent⟩
          extent := tag.extent.through t.extent })) true
      simp only [Option.map_some, Move.openUnit, Move.startTag, ← hpush] at hgrown
      simp only [Option.map_some, Move.openUnit, hduplicate]
      split
      · exact hgrown.report _ t
      · exact hgrown

theorem literal (h : a.Moved r before a') (t : Token) :
    (a.literal t).Moved r before (a'.literal (r.token t)) := by
  have hkeep := h.keep t
  unfold Assembler.literal
  dsimp only
  rw [hkeep.current, hkeep.attributeOpen]
  cases (a.keep t).current with
  | none => exact hkeep.breach _
  | some u =>
    cases u with
    | text _ => exact hkeep.breach _
    | endTag tag =>
      exact hkeep.withAttribute (some (OpenUnit.extend t (.endTag tag))) (a.keep t).attributeOpen
    | startTag tag =>
      have hgive : (if (a.keep t).attributeOpen then
            giveValue (tag.attributes.map r.tagAttribute) (r.token t)
          else tag.attributes.map r.tagAttribute) =
          (if (a.keep t).attributeOpen then giveValue tag.attributes t
            else tag.attributes).map r.tagAttribute := by
        split
        · exact r.giveValue_map tag.attributes t
        · rfl
      have hgrown := hkeep.withAttribute (some (.startTag
        { tag with
          attributes :=
            if (a.keep t).attributeOpen then giveValue tag.attributes t else tag.attributes
          extent := tag.extent.through t.extent })) false
      simp only [Option.map_some, Move.openUnit, Move.startTag, ← hgive] at hgrown
      exact hgrown

theorem tagClose (h : a.Moved r before a') (t : Token) (selfClosing : Bool) :
    (a.tagClose t selfClosing).Moved r before (a'.tagClose (r.token t) selfClosing) := by
  have hkeep := h.keep t
  unfold Assembler.tagClose
  dsimp only
  rw [hkeep.current]
  refine commit ?_
  cases (a.keep t).current with
  | none => exact hkeep.breach _
  | some u =>
    cases u with
    | text _ => exact hkeep.breach _
    | startTag tag =>
      exact hkeep.withCurrent (some (.startTag
        { tag with selfClosing, extent := tag.extent.through t.extent }))
    | endTag tag =>
      have hgrown := hkeep.withCurrent (some (OpenUnit.extend t (.endTag tag)))
      dsimp only [Option.map_some, Move.openUnit]
      split
      · exact hgrown.report _ t
      · exact hgrown

theorem interpolationStart (h : a.Moved r before a') (t : Token) :
    (a.interpolationStart t).Moved r before (a'.interpolationStart (r.token t)) := by
  have hkeep := h.keep t
  have hopening : (a'.keep (r.token t)).opening.isSome = (a.keep t).opening.isSome := by
    rw [hkeep.opening, Option.isSome_map]
  have hopen : ∀ separated : Bool,
      ({ (if separated then (a.keep t).commit else a.keep t) with
        opening := some t } : Assembler).Moved r before
      { (if separated then (a'.keep (r.token t)).commit else a'.keep (r.token t)) with
        opening := some (r.token t) } := by
    intro separated
    cases separated with
    | true => exact { hkeep.commit with opening := rfl }
    | false => exact { hkeep with opening := rfl }
  unfold Assembler.interpolationStart
  dsimp only
  rw [hopening]
  split
  · exact hkeep.text t
  · rw [hkeep.current]
    cases (a.keep t).current with
    | none => exact hopen false
    | some u =>
      cases u with
      | startTag _ => exact hopen true
      | endTag _ => exact hopen true
      | text run =>
        have hjoins : ((r.textRun run).extent.span.stop != (r.token t).extent.span.start) =
            (run.extent.span.stop != t.extent.span.start) := by
          rw [Bool.eq_iff_iff, bne_iff_ne, bne_iff_ne]
          exact not_congr r.offset_inj
        simp only [Option.map_some, Move.openUnit, hjoins]
        exact hopen _

theorem interpolationEnd (h : a.Moved r before a') (t : Token) :
    (a.interpolationEnd t).Moved r before (a'.interpolationEnd (r.token t)) := by
  have hkeep := h.keep t
  have hempty : (a'.keep (r.token t)).inside.isEmpty = (a.keep t).inside.isEmpty := by
    rw [hkeep.inside, Array.isEmpty, Array.isEmpty, Array.size_map]
  unfold Assembler.interpolationEnd
  dsimp only
  rw [hkeep.opening, hempty]
  cases (a.keep t).opening with
  | none => exact hkeep.text t
  | some o =>
    have hclosed : ∀ inside : Array Token,
        ({ a.keep t with opening := none, inside } : Assembler).Moved r before
          { a'.keep (r.token t) with opening := none, inside := inside.map r.token } := fun _ =>
      { hkeep with opening := rfl, inside := rfl }
    rw [Option.map_some]
    dsimp only
    split
    · have hopen : ({ a.keep t with opening := none } : Assembler).Moved r before
          { a'.keep (r.token t) with opening := none } := { hkeep with opening := rfl }
      exact (hopen.text o).text t
    · have hmustache : (⟨joinValues (a'.keep (r.token t)).inside, r.token o, r.token t,
          (r.token o).extent.through (r.token t).extent⟩ : Mustache) =
            r.mustache ⟨joinValues (a.keep t).inside, o, t, o.extent.through t.extent⟩ := by
        rw [hkeep.inside, r.joinValues_map_token]
        rfl
      have hdone : ({ a.keep t with opening := none, inside := #[] } : Assembler).Moved r before
          { a'.keep (r.token t) with opening := none, inside := #[] } :=
        { hkeep with opening := rfl, inside := Array.map_empty.symm }
      rw [hmustache]
      exact hdone.commit.emit (.mustache _)

/-- A token that is moved is taken as the token itself. -/
theorem process (h : a.Moved r before a') (t : Token) :
    (a.process t).Moved r before (a'.process (r.token t)) := by
  have hkind : (r.token t).kind = t.kind := rfl
  have hcomment : ({ a with comments := a.comments.push t } : Assembler).Moved r before
      { a' with comments := a'.comments.push (r.token t) } :=
    { h with
      comments := by
        show a'.comments.push (r.token t) = before.comments ++ (a.comments.push t).map r.token
        rw [h.comments, Array.map_push, Array.append_push] }
  have hfresh : r.openUnit (.startTag ⟨t.value, false, #[], t.extent⟩) =
      .startTag ⟨t.value, false, #[], r.extent t.extent⟩ := by
    simp only [Move.openUnit, Move.startTag, Array.map_empty]
  have hstart := h.startTag t (.startTag ⟨t.value, false, #[], t.extent⟩)
  rw [hfresh] at hstart
  unfold Assembler.process
  rw [hkind, h.inTag]
  cases t.kind with
  | comment | bogusComment => exact hcomment
  | tagOpen => exact hstart
  | endTagOpen => exact h.startTag t (.endTag ⟨t.value, t.extent⟩)
  | identifier => exact h.identifier t
  | association => exact h.tagPart t
  | literal => exact h.literal t
  | tagClose => exact h.tagClose t false
  | selfClosingTagClose => exact h.tagClose t true
  | interpolationStart => exact h.interpolationStart t
  | interpolationEnd => exact h.interpolationEnd t
  | whitespace =>
    dsimp only
    split
    · exact h.tagPart t
    · exact (h.keep t).text t
  | text | rcdataText | rawText | cdataText => exact (h.keep t).text t

end Assembler.Moved

end TemplateSyntax
