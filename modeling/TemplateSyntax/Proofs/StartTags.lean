import TemplateSyntax.Proofs.CharactersKept
import TemplateSyntax.Proofs.ReportPlaces
import TemplateSyntax.Proofs.ReportSources
import TemplateSyntax.Proofs.TagRows

/-! # Start tags are assembled without loss

The start tags among the units of a template are what the rows of its tokens write, tag by tag.  While
tokens are taken, the tag that may still grow is what the last row writes so far (`TagsRead`); no other
token touches it, and a value comes only where the name of its last attribute waits.  Each attribute whose
name is there already is on record as soon as it is part of the tag. -/

namespace TemplateSyntax

variable {ts : List Token} {us us' : List MarkupUnit} {t o : Token}

open TokenKind (waitsBehind ValuesNamed)

/-- The start tag, if the unit is one. -/
def MarkupUnit.startTag? : MarkupUnit → Option StartTag
  | .startTag tag => some tag
  | _ => none

/-- The start tags among some units, in order. -/
def startTagsOf (us : List MarkupUnit) : List StartTag := us.filterMap MarkupUnit.startTag?

theorem startTagsOf_append (us us' : List MarkupUnit) :
    startTagsOf (us ++ us') = startTagsOf us ++ startTagsOf us' :=
  List.filterMap_append ..

namespace Assembler

variable {a a' : Assembler}

/-- The start tags that are out, and the one that may still grow. -/
def startTags (a : Assembler) : List StartTag := startTagsOf a.units

theorem startTags_none (h : a.current = none) : a.startTags = startTagsOf a.output.toList := by
  rw [startTags, units_none h]

theorem startTags_some {u : OpenUnit} (h : a.current = some u) :
    a.startTags = startTagsOf a.output.toList ++ u.close.startTag?.toList := by
  rw [startTags, units_some h, startTagsOf_append]
  cases u <;> rfl

/-- Text that may still grow is no start tag. -/
theorem startTags_text_current {r : TextRun} (h : a.current = some (.text r)) :
    a.startTags = startTagsOf a.output.toList := by
  rw [startTags_some h]
  exact List.append_nil _

theorem startTags_emitCurrent (a : Assembler) :
    startTagsOf a.emitCurrent.output.toList = a.startTags := by
  rw [emitCurrent_output, startTags]

theorem startTags_flushInterpolation (a : Assembler) :
    a.flushInterpolation.startTags = a.startTags := by
  unfold flushInterpolation
  split
  · rfl
  · dsimp only
    split
    · next r hr =>
      rw [startTags_text_current rfl, startTags_text_current (r := r) hr]
    · rw [startTags_text_current rfl]
      exact startTags_emitCurrent { a with opening := none, inside := #[] }

theorem startTagsOf_commit (a : Assembler) : startTagsOf a.commit.output.toList = a.startTags :=
  a.flushInterpolation.startTags_emitCurrent.trans a.startTags_flushInterpolation

theorem startTags_commit (a : Assembler) : a.commit.startTags = a.startTags :=
  (startTags_none a.commit_current).trans a.startTagsOf_commit

theorem startTags_takeOutput (a : Assembler) :
    startTagsOf a.output.toList ++ ({ a with output := #[] } : Assembler).startTags = a.startTags := by
  rw [startTags, startTags, ← startTagsOf_append]
  simp [units]

/-- Where text is set behind everything that is put out, the start tags stay. -/
theorem startTags_fresh (a : Assembler) (r : TextRun) :
    ({ a.commit with current := some (.text r) } : Assembler).startTags = a.startTags := by
  rw [startTags_text_current rfl]
  exact a.startTagsOf_commit

theorem startTags_text (a : Assembler) (t : Token) : (a.text t).startTags = a.startTags := by
  unfold text
  dsimp only
  split
  · rfl
  · split
    · next r hr =>
      split
      · rw [startTags_text_current rfl, startTags_text_current hr]
      · exact a.startTags_fresh _
    · exact a.startTags_fresh _

theorem startTags_interpolationStart (a : Assembler) (t : Token) :
    (a.interpolationStart t).startTags = a.startTags := by
  have hseparated : ∀ separated : Bool,
      (if separated then (a.keep t).commit else a.keep t).startTags = a.startTags := by
    intro separated
    split
    · exact (a.keep t).startTags_commit
    · rfl
  unfold interpolationStart
  dsimp only
  split
  · exact (a.keep t).startTags_text t
  · exact hseparated _

/-- No start tag is put out. -/
theorem startTags_emit {u : MarkupUnit} (hc : a.current = none) (hu : u.startTag? = none) :
    (a.emit u).startTags = a.startTags := by
  rw [startTags_none hc, startTags_none (a := a.emit u) hc, emit, Array.toList_push, startTagsOf_append,
    startTagsOf, startTagsOf, List.filterMap_cons_none hu]
  exact List.append_nil _

theorem startTags_interpolationEnd (a : Assembler) (t : Token) :
    (a.interpolationEnd t).startTags = a.startTags := by
  unfold interpolationEnd
  dsimp only
  split
  · exact (a.keep t).startTags_text t
  · split
    · rw [startTags_text, startTags_text]
      rfl
    · rw [startTags_emit (commit_current _) rfl]
      exact startTags_commit { a.keep t with opening := none, inside := #[] }

/-- Where no tag is open, character data changes no start tag, and neither do comments. -/
theorem startTags_process (hin : a.inTag = false)
    (hk : t.kind.inContent = true ∨ t.kind.isComment = true) :
    (a.process t).startTags = a.startTags := by
  unfold process
  cases hkind : t.kind with
  | comment | bogusComment => rfl
  | interpolationStart => exact a.startTags_interpolationStart t
  | interpolationEnd => exact a.startTags_interpolationEnd t
  | text | rcdataText | rawText | cdataText => exact (a.keep t).startTags_text t
  | whitespace =>
    dsimp only
    rw [hin]
    exact (a.keep t).startTags_text t
  | _ =>
    rw [hkind] at hk
    exact absurd hk (by decide)

end Assembler

/-! ## Names that are there already -/

/-- The names of the attributes. -/
def StartTag.names (tag : StartTag) : List Token := tag.attributes.toList.map TagAttribute.key

theorem StartTag.any_attributes (tag : StartTag) (p : Token → Bool) :
    (tag.attributes.any fun x => p x.key) = tag.names.any p := by
  rw [names, List.any_map, ← Array.any_toList]
  rfl

theorem StartTag.names_push (tag : StartTag) (t : Token) (v : Option Token) (e e' : Extent) :
    names { tag with attributes := tag.attributes.push ⟨t, v, e⟩, extent := e' } =
      tag.names ++ [t] := by
  rw [names, Array.toList_push, List.map_append]
  rfl

/-- What is reported about the names of a tag: each that is there already, where it starts. -/
def Locator.repeats (l : Locator) (names : List Token) : List Diagnostic :=
  (Token.repeated names).map fun t =>
    l.diagnose (.duplicateAttribute t.value.toLower) t.extent.span.start

/-- The same with the positions that the names bring along. -/
def Token.repeats (names : List Token) : List Diagnostic :=
  (repeated names).map fun t => t.diagnose (.duplicateAttribute t.value.toLower)

/-- One name more is reported if it is there already. -/
theorem Token.repeats_concat (names : List Token) (t : Token) :
    repeats (names ++ [t]) = repeats names ++
      if names.any fun x => Text.sameLetters x.value t.value then
        [t.diagnose (.duplicateAttribute t.value.toLower)] else [] := by
  rw [repeats, repeated_concat, List.map_append]
  split <;> rfl

/-- The positions that the names bring along are those of their spans. -/
theorem Locator.flatMap_repeats {l : Locator} {rows : List (List Token)}
    (h : ∀ t ∈ rows.flatMap Token.repeated, t.extent = l.extent t.extent.span) :
    rows.flatMap Token.repeats = rows.flatMap l.repeats := by
  have hrows : rows.flatMap Token.repeats = (rows.flatMap Token.repeated).map fun t =>
      t.diagnose (.duplicateAttribute t.value.toLower) := List.map_flatMap.symm
  have hplaced : rows.flatMap l.repeats = (rows.flatMap Token.repeated).map fun t =>
      l.diagnose (.duplicateAttribute t.value.toLower) t.extent.span.start := List.map_flatMap.symm
  rw [hrows, hplaced]
  refine List.map_congr_left fun t ht => ?_
  exact congrArg (fun e => (⟨_, _, e.loc.start⟩ : Diagnostic)) (h t ht)

/-- Whether the cause is an attribute whose name is there already. -/
def Cause.isDuplicateAttribute : Cause → Bool
  | .duplicateAttribute _ => true
  | _ => false

namespace Assembler

variable {a a' : Assembler}

/-- The attributes whose names are there already are on record, and no others are. -/
def Repeats (us : List MarkupUnit) (a : Assembler) : Prop :=
  a.diagnostics.toList.filter (·.cause.isDuplicateAttribute) =
    ((startTagsOf us ++ a.startTags).map StartTag.names).flatMap Token.repeats

namespace Repeats

/-- Where the names of the start tags and what is reported stay, so does this. -/
theorem congr (h : a.Repeats us) (hdiagnostics : a'.diagnostics = a.diagnostics)
    (hnames : a'.startTags.map StartTag.names = a.startTags.map StartTag.names) : a'.Repeats us := by
  unfold Repeats at h ⊢
  rw [hdiagnostics, h, List.map_append, List.map_append, hnames]

/-- The unit that may still grow keeps its names. -/
theorem grow (h : a.Repeats us) {u u' : OpenUnit} (hu : a.current = some u)
    (hu' : a'.current = some u') (houtput : a'.output = a.output)
    (hdiagnostics : a'.diagnostics = a.diagnostics)
    (hnames : u'.close.startTag?.map StartTag.names = u.close.startTag?.map StartTag.names) :
    a'.Repeats us := by
  refine h.congr hdiagnostics ?_
  rw [startTags_some hu, startTags_some hu', houtput, List.map_append, List.map_append,
    ← Option.toList_map, ← Option.toList_map, hnames]

/-- A token that adds to the extent only. -/
theorem extend (h : a.Repeats us) {u : OpenUnit} (hu : a.current = some u) {t : Token} :
    Assembler.Repeats us { a with current := some (u.extend t) } := by
  refine h.grow hu rfl rfl rfl ?_
  cases u <;> rfl

/-- What is reported about the start tag that may still grow comes last. -/
theorem flatMap_repeats {tag : StartTag} (h : a.current = some (.startTag tag)) :
    ((startTagsOf us ++ a.startTags).map StartTag.names).flatMap Token.repeats =
      ((startTagsOf us ++ startTagsOf a.output.toList).map StartTag.names).flatMap Token.repeats ++
        Token.repeats tag.names := by
  rw [startTags_some h, ← List.append_assoc, List.map_append, List.flatMap_append]
  exact congrArg _ (List.flatMap_singleton ..)

theorem keep (h : a.Repeats us) (t : Token) : (a.keep t).Repeats us :=
  h.congr rfl rfl

theorem commit (h : a.Repeats us) : a.commit.Repeats us :=
  h.congr a.commit_diagnostics
    (congrArg _ a.startTags_commit)

theorem text (h : a.Repeats us) (t : Token) : (a.text t).Repeats us :=
  h.congr (a.text_diagnostics t)
    (congrArg _ (a.startTags_text t))

/-- What is reported has another cause. -/
theorem report (h : a.Repeats us) {cause : Cause} (hc : cause.isDuplicateAttribute = false) (t : Token) :
    (a.report cause t).Repeats us := by
  refine Eq.trans ?_ h
  rw [Assembler.report, Array.toList_push, List.filter_append, List.filter_cons_of_neg, List.filter_nil,
    List.append_nil]
  exact hc ▸ Bool.false_ne_true

/-- A tag starts, which has no names yet. -/
theorem startTag (h : a.Repeats us) (t : Token) {u : OpenUnit}
    (hu : ∀ tag ∈ u.close.startTag?, tag.names = []) : (a.startTag t u).Repeats us := by
  have hcommit := (h.keep t).commit
  have hnone : (u.close.startTag?.toList.map StartTag.names).flatMap Token.repeats = [] := by
    cases htag : u.close.startTag? with
    | none => rfl
    | some tag =>
      rw [Option.toList_some, List.map_singleton, hu tag htag]
      rfl
  have hopened : (a.startTag t u).startTags =
      (a.keep t).commit.startTags ++ u.close.startTag?.toList := by
    rw [startTags_none (commit_current _)]
    exact startTags_some rfl
  refine hcommit.trans ?_
  rw [hopened]
  simp only [List.map_append, List.flatMap_append, hnone, List.append_nil]

theorem tagPart (h : a.Repeats us) (t : Token) : (a.tagPart t).Repeats us := by
  unfold Assembler.tagPart
  split
  · next u hu =>
    split
    · exact (h.extend hu).keep t
    · exact h.keep t
  · exact h.keep t

/-- A name of a start tag is reported if it is there already. -/
theorem identifier (h : a.Repeats us) (t : Token) : (a.identifier t).Repeats us := by
  have hkeep := h.keep t
  unfold Assembler.identifier
  dsimp only
  split
  · next tag htag =>
    have hreported : _ = _ := hkeep
    rw [flatMap_repeats htag] at hreported
    rw [tag.any_attributes fun x => Text.sameLetters x.value t.value]
    split
    · next hdup =>
      unfold Repeats
      rw [flatMap_repeats rfl, tag.names_push, Token.repeats_concat, if_pos hdup, ← List.append_assoc]
      refine Eq.trans ?_ (congrArg (· ++ [_]) hreported)
      rw [Assembler.report, Array.toList_push, List.filter_append]
      rfl
    · next hnew =>
      refine hreported.trans ?_
      rw [flatMap_repeats rfl, tag.names_push, Token.repeats_concat, if_neg hnew, List.append_nil]
  · next tag htag => exact (hkeep.extend htag).report rfl t
  · exact hkeep.congr rfl rfl

theorem literal (h : a.Repeats us) (t : Token) : (a.literal t).Repeats us := by
  have hkeep := h.keep t
  unfold Assembler.literal
  dsimp only
  split
  · next tag htag =>
    refine hkeep.grow htag rfl rfl rfl (congrArg some ?_)
    unfold StartTag.names
    dsimp only
    split
    · exact Marked.map_key_giveValue tag.attributes t
    · rfl
  · next tag htag => exact hkeep.extend htag
  · exact hkeep.congr rfl rfl

theorem tagClose (h : a.Repeats us) (t : Token) (selfClosing : Bool) :
    (a.tagClose t selfClosing).Repeats us := by
  have hkeep := h.keep t
  unfold Assembler.tagClose
  dsimp only
  refine Repeats.commit ?_
  split
  · next tag htag => exact hkeep.grow htag rfl rfl rfl rfl
  · next tag htag =>
    split
    · exact (hkeep.extend htag).report rfl t
    · exact hkeep.extend htag
  · exact hkeep.congr rfl rfl

theorem interpolationStart (h : a.Repeats us) (t : Token) :
    (a.interpolationStart t).Repeats us := by
  have hkeep := h.keep t
  unfold Assembler.interpolationStart
  dsimp only
  split
  · exact hkeep.text t
  · have hseparated : ∀ separated : Bool,
        (if separated then (a.keep t).commit else a.keep t).Repeats us := by
      intro separated
      split
      · exact hkeep.commit
      · exact hkeep
    exact (hseparated _).congr rfl rfl

theorem interpolationEnd (h : a.Repeats us) (t : Token) :
    (a.interpolationEnd t).Repeats us := by
  have hkeep := h.keep t
  unfold Assembler.interpolationEnd
  dsimp only
  split
  · exact hkeep.text t
  · next o _ =>
    split
    · have hopen : ({ a.keep t with opening := none } : Assembler).Repeats us :=
        hkeep.congr rfl rfl
      exact (hopen.text o).text t
    · have hopen : ({ a.keep t with opening := none, inside := #[] } : Assembler).Repeats us :=
        hkeep.congr rfl rfl
      exact hopen.commit.congr rfl (congrArg _ (startTags_emit (commit_current _) rfl))

/-- Whatever token is taken, the names that are there already are on record. -/
theorem process (h : a.Repeats us) (t : Token) : (a.process t).Repeats us := by
  unfold Assembler.process
  cases t.kind with
  | comment | bogusComment => exact h.congr rfl rfl
  | tagOpen => exact h.startTag t fun tag htag => Option.some.inj htag ▸ rfl
  | endTagOpen => exact h.startTag t nofun
  | identifier => exact h.identifier t
  | association => exact h.tagPart t
  | literal => exact h.literal t
  | tagClose | selfClosingTagClose => exact h.tagClose t _
  | interpolationStart => exact h.interpolationStart t
  | interpolationEnd => exact h.interpolationEnd t
  | text | rcdataText | rawText | cdataText => exact (h.keep t).text t
  | whitespace =>
    dsimp only
    split
    · exact h.tagPart t
    · exact (h.keep t).text t

/-- What is put out makes room for more. -/
theorem takeOutput (h : a.Repeats us) :
    Assembler.Repeats (us ++ a.output.toList) { a with output := #[] } := by
  refine h.trans ?_
  rw [startTagsOf_append, List.append_assoc, a.startTags_takeOutput]

end Repeats
end Assembler

/-! ## Tags that are open -/

/-- Outside tags, a tag starts, or no tag is there behind the token either. -/
theorem Mode.after_outside {k : TokenKind} {m m' : Mode} (h : m.after k = some m') (hm : m ≠ .tag) :
    (k = .tagOpen ∨ k = .endTagOpen) ∧ m' = .tag ∨
      (k.inContent = true ∨ k.isComment = true) ∧ m' ≠ .tag := by
  cases m <;> cases k <;> cases m' <;>
    first | exact absurd rfl hm | exact absurd h (by decide) | decide

/-- In a tag there are its parts, up to the token that closes it. -/
theorem Mode.after_inside {k : TokenKind} {m : Mode} (h : tag.after k = some m) :
    m = .tag ∧ (k = .identifier ∨ k = .literal ∨ k = .association ∨ k = .whitespace) ∨
      m = .content ∧ k.closesTag = true := by
  cases k <;> cases m <;> first | exact absurd h (by decide) | decide

namespace Assembler

variable {a : Assembler} {row front parts back : List Token}

/-- The unit that may still grow is the tag that the tokens open.  It may get a value where a name waits for
one. -/
inductive Opens (row : List Token) (a : Assembler) : Prop
  | startTag {tag : StartTag} (current : a.current = some (.startTag tag)) (written : tag.WrittenAs row)
      (waits : waitsBehind (row.map Token.kind) = true → a.attributeOpen = true)
  | endTag {tag : EndTag} (current : a.current = some (.endTag tag))
      (opening : ∃ o parts, row = o :: parts ∧ o.kind = .endTagOpen)

namespace Opens

theorem inTag (h : a.Opens row) : a.inTag = true := by
  cases h with
  | startTag hc | endTag hc =>
    rw [Assembler.inTag, hc]
    rfl

theorem head (h : a.Opens (o :: parts)) : o.kind = .tagOpen ∨ o.kind = .endTagOpen := by
  cases h with
  | startTag hc hw hopen =>
    obtain ⟨o', parts', heq, ho, -⟩ := hw.opening
    exact .inl ((List.cons.inj heq).1 ▸ ho)
  | endTag hc ho =>
    obtain ⟨o', parts', heq, ho⟩ := ho
    exact .inr ((List.cons.inj heq).1 ▸ ho)

theorem endTag_concat (tag : EndTag) (hc : a.current = some (.endTag tag)) (t : Token)
    (h : ∃ o parts, row = o :: parts ∧ o.kind = .endTagOpen) : a.Opens (row ++ [t]) := by
  obtain ⟨o, parts, rfl, ho⟩ := h
  exact .endTag hc ⟨o, parts ++ [t], rfl, ho⟩

theorem tagPart (h : a.Opens row) (hk : t.kind = .association ∨ t.kind = .whitespace) :
    (a.tagPart t).Opens (row ++ [t]) ∧ (a.tagPart t).output = a.output := by
  unfold Assembler.tagPart
  cases h with
  | @startTag tag hc hw hopen =>
    rw [hc]
    refine ⟨.startTag rfl (hw.concat_other ?_ ?_ ?_) ?_, rfl⟩
    · rcases hk with hk | hk <;> simp [hk]
    · rcases hk with hk | hk <;> simp [hk]
    · rcases hk with hk | hk <;> simp [hk]
    · rw [Token.waitsBehind_map_concat]
      rcases hk with hk | hk <;> exact hk ▸ hopen
  | @endTag tag hc ho =>
    rw [hc]
    exact ⟨endTag_concat _ rfl t ho, rfl⟩

theorem identifier (h : a.Opens row) (hk : t.kind = .identifier) :
    (a.identifier t).Opens (row ++ [t]) ∧ (a.identifier t).output = a.output := by
  unfold Assembler.identifier
  dsimp only
  cases h with
  | @startTag tag hc hw hopen =>
    rw [show (a.keep t).current = _ from hc]
    dsimp only
    split <;> exact ⟨.startTag rfl (hw.concat_name hk) fun _ => rfl, rfl⟩
  | @endTag tag hc ho =>
    rw [show (a.keep t).current = _ from hc]
    exact ⟨endTag_concat _ rfl t ho, rfl⟩

/-- A value comes where a name waits for it. -/
theorem literal (h : a.Opens row) (hk : t.kind = .literal)
    (hwaits : waitsBehind (row.map Token.kind) = true) :
    (a.literal t).Opens (row ++ [t]) ∧ (a.literal t).output = a.output := by
  unfold Assembler.literal
  dsimp only
  cases h with
  | @startTag tag hc hw hopen =>
    rw [show (a.keep t).current = _ from hc]
    dsimp only
    rw [show (a.keep t).attributeOpen = _ from hopen hwaits, if_pos rfl]
    refine ⟨.startTag rfl (hw.concat_value hwaits hk) fun hbehind => ?_, rfl⟩
    rw [Token.waitsBehind_map_concat, hk] at hbehind
    cases hbehind
  | @endTag tag hc ho =>
    rw [show (a.keep t).current = _ from hc]
    exact ⟨endTag_concat _ rfl t ho, rfl⟩

/-- The tag is put out with the token that closes it. -/
theorem tagClose (h : a.Opens row) (hk : t.kind.closesTag = true)
    (hparts : ∀ t ∈ row, t.kind ≠ .selfClosingTagClose) :
    ∃ a' : Assembler, a'.Opens (row ++ [t]) ∧ a'.output = a.output ∧
      a.tagClose t (decide (t.kind = .selfClosingTagClose)) = a'.commit := by
  have hself : decide (t.kind = .selfClosingTagClose) =
      (row.any (fun t => t.kind = .selfClosingTagClose) || decide (t.kind = .selfClosingTagClose)) := by
    rw [List.any_eq_false.2 fun t ht => by simpa using hparts t ht, Bool.false_or]
  obtain ⟨hi, hl, hwaits⟩ : t.kind ≠ .identifier ∧ t.kind ≠ .literal ∧ ∀ w, t.kind.waits w = false := by
    generalize t.kind = k at hk
    cases k <;> first | decide | cases hk
  unfold Assembler.tagClose
  dsimp only
  cases h with
  | @startTag tag hc hw hopen =>
    rw [show (a.keep t).current = _ from hc]
    refine ⟨_, ?_, ?_, rfl⟩
    · refine .startTag rfl (hw.concat_other hi hl (hw.selfClosing ▸ hself)) fun hbehind => ?_
      rw [Token.waitsBehind_map_concat, hwaits] at hbehind
      cases hbehind
    · rfl
  | @endTag tag hc ho =>
    rw [show (a.keep t).current = _ from hc]
    dsimp only
    refine ⟨_, endTag_concat { tag with extent := tag.extent.through t.extent } ?_ t ho, ?_, rfl⟩
    · split <;> rfl
    · split <;> rfl

/-- The names in front of the tag do not wait for a value in it. -/
theorem waitsBehind_append (h : a.Opens (o :: parts)) (front : List Token) :
    waitsBehind ((front ++ o :: parts).map Token.kind) = waitsBehind ((o :: parts).map Token.kind) := by
  have hfresh : ∀ w, o.kind.waits w = false := by
    rcases h.head with ho | ho <;> rw [ho] <;> exact fun _ => rfl
  rw [List.map_append, List.map_cons, TokenKind.waitsBehind_append_cons hfresh]

/-- A part of the tag is taken. -/
theorem process (h : a.Opens row)
    (hk : t.kind = .identifier ∨ t.kind = .literal ∨ t.kind = .association ∨ t.kind = .whitespace)
    (hv : t.kind = .literal → waitsBehind (row.map Token.kind) = true) :
    (a.process t).Opens (row ++ [t]) ∧ (a.process t).output = a.output := by
  unfold Assembler.process
  rcases hk with hk | hk | hk | hk <;> rw [hk]
  · exact h.identifier hk
  · exact h.literal hk (hv hk)
  · exact h.tagPart (.inl hk)
  · dsimp only
    rw [if_pos h.inTag]
    exact h.tagPart (.inr hk)

/-- The token is taken that closes the tag. -/
theorem process_closesTag (h : a.Opens (o :: parts)) (hparts : Token.Parts parts)
    (hk : t.kind.closesTag = true) :
    ∃ a' : Assembler, a'.Opens (o :: parts ++ [t]) ∧ a'.output = a.output ∧ a.process t = a'.commit := by
  have hopen : ∀ t ∈ o :: parts, t.kind ≠ .selfClosingTagClose := by
    refine List.forall_mem_cons.2 ⟨?_, fun t' ht' heq => ?_⟩
    · rcases h.head with ho | ho <;> simp [ho]
    · have hpart := hparts.closesTag t' ht'
      rw [heq] at hpart
      cases hpart
  have hclose : a.process t = a.tagClose t (decide (t.kind = .selfClosingTagClose)) := by
    unfold Assembler.process
    cases hkind : t.kind with
    | tagClose | selfClosingTagClose => rfl
    | _ =>
      rw [hkind] at hk
      cases hk
  rw [hclose]
  exact h.tagClose hk hopen

/-- The start tags are those that are out, and what the row of tokens writes. -/
theorem tagsOf (h : a.Opens (o :: (parts ++ back))) (hparts : Token.Parts parts)
    (hback : back = [] ∨ ∃ c, back = [c] ∧ c.kind.closesTag = true) :
    ∃ tags, a.startTags = startTagsOf a.output.toList ++ tags ∧ TagsOf (o :: (parts ++ back)) tags := by
  cases h with
  | @startTag tag hc hw hopen =>
    obtain ⟨o', parts', heq, ho, -⟩ := hw.opening
    obtain ⟨rfl, -⟩ := List.cons.inj heq
    exact ⟨[tag], startTags_some hc, .single ho hparts hback hw⟩
  | @endTag tag hc ho =>
    obtain ⟨o', parts', heq, ho⟩ := ho
    obtain ⟨rfl, -⟩ := List.cons.inj heq
    refine ⟨[], startTags_some hc, .none (List.forall_mem_cons.2 ⟨by simp [ho], ?_⟩)⟩
    exact Token.kind_ne_of_parts hparts hback

end Opens

/-- The start tags so far are what the tokens write. -/
inductive TagsRead (ts : List Token) (us : List MarkupUnit) (a : Assembler) : Bool → Prop
  | outside (closed : Token.tagBehind false ts = false)
      (tags : TagsOf ts (startTagsOf us ++ a.startTags)) : TagsRead ts us a false
  | inside {front parts : List Token} {o : Token} (split : ts = front ++ o :: parts)
      (closed : Token.tagBehind false front = false)
      (tags : TagsOf front (startTagsOf us ++ startTagsOf a.output.toList))
      (ofTag : Token.Parts parts) (opens : a.Opens (o :: parts)) : TagsRead ts us a true

namespace TagsRead

theorem tagsOf {inTag : Bool} (h : TagsRead ts us a inTag) :
    TagsOf ts (startTagsOf us ++ a.startTags) := by
  cases h with
  | outside hclosed htags => exact htags
  | @inside front parts o hsplit hclosed htags hparts hopens =>
    rw [← List.append_nil parts] at hopens
    obtain ⟨tags, heq, hrow⟩ := hopens.tagsOf hparts (.inl rfl)
    rw [List.append_nil] at hrow
    rw [hsplit, heq, ← List.append_assoc]
    exact htags.append hclosed hrow

/-- A tag starts with the token. -/
theorem startTag (h : TagsRead ts us a false) {u : OpenUnit} (hopens : (a.startTag t u).Opens [t]) :
    TagsRead (ts ++ [t]) us (a.startTag t u) true := by
  cases h with
  | outside hclosed htags =>
    exact .inside rfl hclosed ((a.keep t).startTagsOf_commit ▸ htags) (List.forall_mem_nil _) hopens

/-- A token outside tags starts no tag. -/
theorem content (h : TagsRead ts us a false) (hin : a.inTag = false)
    (hk : t.kind.inContent = true ∨ t.kind.isComment = true) :
    TagsRead (ts ++ [t].filter fun t => !t.kind.isComment) us (a.process t) false := by
  obtain ⟨hbehind, hne⟩ : t.kind.tagBehind false = false ∧ t.kind ≠ .tagOpen := by
    generalize t.kind = k at hk
    cases k <;> first | decide | exact absurd hk (by decide)
  cases h with
  | outside hclosed htags =>
    refine .outside ?_ ?_
    · rw [Token.tagBehind_append, hclosed, List.filter_cons]
      split
      · exact hbehind
      · rfl
    · rw [startTags_process hin hk, ← List.append_nil (_ ++ a.startTags)]
      refine htags.append hclosed (.none fun t' ht' => ?_)
      rwa [List.mem_singleton.1 (List.mem_of_mem_filter ht')]

/-- Outside tags. -/
theorem process_outside {m m' : Mode} (h : TagsRead ts us a false) (hin : a.inTag = false)
    (hm : m.after t.kind = some m') (hne : m ≠ .tag) :
    TagsRead (ts ++ [t].filter fun t => !t.kind.isComment) us (a.process t) (decide (m' = .tag)) := by
  rcases Mode.after_outside hm hne with ⟨hk | hk, rfl⟩ | ⟨hk, hm'⟩
  · rw [List.filter_cons_of_pos (by rw [hk]; rfl), Assembler.process, hk]
    refine h.startTag (.startTag rfl (.single hk) fun hbehind => ?_)
    rw [List.map_singleton, hk] at hbehind
    cases hbehind
  · rw [List.filter_cons_of_pos (by rw [hk]; rfl), Assembler.process, hk]
    exact h.startTag (.endTag rfl ⟨t, [], rfl, hk⟩)
  · rw [decide_eq_false hm']
    exact h.content hin hk

/-- In a tag. -/
theorem process_inside {m' : Mode} (h : TagsRead ts us a true) (hm : Mode.tag.after t.kind = some m')
    (hv : t.kind = .literal → waitsBehind (ts.map Token.kind) = true) :
    TagsRead (ts ++ [t]) us (a.process t) (decide (m' = .tag)) := by
  cases h with
  | @inside front parts o hsplit hclosed htags hparts hopens =>
    subst hsplit
    rcases Mode.after_inside hm with ⟨rfl, hk⟩ | ⟨rfl, hk⟩
    · obtain ⟨hgrown, houtput⟩ := hopens.process hk fun hk => hopens.waitsBehind_append front ▸ hv hk
      refine .inside (List.append_assoc ..) hclosed (houtput ▸ htags) ?_ hgrown
      exact List.forall_mem_append.2 ⟨hparts, List.forall_mem_singleton.2 hm⟩
    · obtain ⟨a', hopens', houtput, hcommit⟩ := hopens.process_closesTag hparts hk
      obtain ⟨tags, heq, hrow⟩ := hopens'.tagsOf hparts (.inr ⟨t, rfl, hk⟩)
      refine .outside ?_ ?_
      · rw [Token.tagBehind_append]
        show t.kind.tagBehind _ = false
        generalize t.kind = k at hk
        cases k <;> first | rfl | cases hk
      · rw [hcommit, startTags_commit, heq, houtput,
          List.append_assoc, ← List.append_assoc (startTagsOf us)]
        exact htags.append hclosed hrow

/-- A token that can come next is taken. -/
theorem process {m m' : Mode} (h : TagsRead ts us a (decide (m = .tag)))
    (hin : a.inTag = decide (m = .tag)) (hm : m.after t.kind = some m')
    (hv : t.kind = .literal → waitsBehind (ts.map Token.kind) = true) :
    TagsRead (ts ++ [t].filter fun t => !t.kind.isComment) us (a.process t) (decide (m' = .tag)) := by
  by_cases htag : m = .tag
  · subst htag
    have hcomment : t.kind.isComment = false := by
      generalize t.kind = k at hm
      cases k <;> first | rfl | cases hm
    rw [List.filter_cons_of_pos (by simp [hcomment]), List.filter_nil]
    exact h.process_inside hm hv
  · rw [decide_eq_false htag] at h hin
    exact h.process_outside hin hm htag

theorem takeOutput {inTag : Bool} (h : TagsRead ts us a inTag) :
    TagsRead ts (us ++ a.output.toList) { a with output := #[] } inTag := by
  cases h with
  | outside hclosed htags =>
    refine .outside hclosed ?_
    rw [startTagsOf_append, List.append_assoc, a.startTags_takeOutput]
    exact htags
  | inside hsplit hclosed htags hparts hopens =>
    refine .inside hsplit hclosed ?_ hparts ?_
    · rw [startTagsOf_append, List.append_assoc, ← startTagsOf_append, List.append_nil]
      exact htags
    · cases hopens with
      | startTag hc hw hopen => exact .startTag hc hw hopen
      | endTag hc ho => exact .endTag hc ho

end TagsRead
end Assembler

/-! ## The start tags of a template -/

/-- The names of all tags stand in the order of the rows. -/
theorem StartTag.names_sublist {rows : List (List Token)} {tags : List StartTag}
    (h : List.Forall₂ KeepsAll rows tags) : (tags.map names).flatten.Sublist rows.flatten := by
  induction h with
  | nil => exact List.Sublist.slnil
  | cons htag _ ih =>
    rw [List.map_cons, List.flatten_cons, List.flatten_cons, names, htag.keys]
    exact List.filter_sublist.append ih

namespace Carries

variable {a : Assembler} {m : Mode} {p : Nat}

/-- A tag is open behind the tokens in a tag only, and the assembler has it then. -/
theorem tagBehind (h : Carries ts us a m p) :
    Token.tagBehind false ts = decide (m = .tag) ∧ a.inTag = decide (m = .tag) := by
  cases m with
  | content | tag => exact ⟨CarriesUnit.behind h, CarriesUnit.inTag h⟩
  | interpolation =>
    have hbraces : CarriesBraces ts us a p := h
    obtain ⟨front, o, rfl, -, ho, -, hclosed, htakes, -⟩ := hbraces.braces
    refine ⟨?_, htakes.noTag⟩
    rw [Token.tagBehind_append, hclosed]
    refine Token.tagBehind_of_inContent (List.forall_mem_cons.2 ⟨by rw [ho]; rfl, fun t ht => ?_⟩)
    have htext := hbraces.inside t (by simpa using ht)
    simp [TokenKind.inContent, htext]

end Carries

namespace Builder

/-- What is carried along a run: the start tags that were taken so far, and what is reported about them. -/
structure ReadsTags (cs : List Char) (l : Locator) (taken : List Token) (us : List MarkupUnit)
    (b : Builder) : Prop extends Carrying cs l taken us b where
  repeats : b.assembler.Repeats us
  tags : ValuesNamed ((taken.filter fun t => !t.kind.isComment).map Token.kind) →
    b.assembler.TagsRead (taken.filter fun t => !t.kind.isComment) us
      (Token.tagBehind false (taken.filter fun t => !t.kind.isComment))

namespace ReadsTags

variable {cs : List Char} {l : Locator} {taken : List Token} {b : Builder}

/-- A token more is taken. -/
theorem take (h : ReadsTags cs l taken us b) {t : Token} {x : Lexer}
    (hpull : b.lexer.pull = (some t, x)) (hx : x.Tracks cs (taken ++ [t])) (hloc : x.locator = l) :
    ReadsTags cs l (taken ++ [t]) (us ++ (b.assembler.process t).output.toList) (b.take t x) := by
  have hassembler : (b.take t x).assembler = { b.assembler.process t with output := #[] } := by
    rw [Builder.take, drain_assembler]
  have hnext := h.toCarrying.take hpull hx hloc
  refine ⟨hnext, hassembler ▸ (h.repeats.process t).takeOutput, fun hv => ?_⟩
  obtain ⟨gap, m, p, hstream, hcarries⟩ := h.carries
  obtain ⟨gap', m', p', hstream', hcarries'⟩ := hnext.carries
  obtain ⟨m₀, p₀, t', h₀, hlexed, ht⟩ := hstream'.snoc_inv
  obtain ⟨rfl, rfl⟩ := hstream.unique h₀
  have hafter : m.after t.kind = some m' := ht ▸ hlexed.after
  rw [hcarries'.tagBehind.1, hassembler]
  refine Assembler.TagsRead.takeOutput ?_
  rw [List.filter_append, List.map_append] at hv
  have htags := h.tags hv.front
  rw [hcarries.tagBehind.1] at htags
  rw [List.filter_append]
  refine htags.process hcarries.tagBehind.2 hafter fun hk => hv _ [] ?_
  rw [List.filter_cons_of_pos (by rw [hk]; rfl), ← hk]
  rfl

theorem start (text : String) (o : Options) :
    ReadsTags text.toList (Template.locatorOf text o) [] [] (Template.startOf text o) where
  toCarrying := .start text o
  repeats := rfl
  tags _ := .outside rfl (.none (List.forall_mem_nil _))

end ReadsTags
end Builder

namespace Template

variable (text : String) (o : Options) (reader : Script.Reader)

/-- The start tags of a template are what its tokens write, and the names that are there already are on
record. -/
theorem exists_readsTags : TagsOf (parse text o reader).tokens.toList (startTagsOf (unitsOf text o)) ∧
    (outlineOf text o).diagnostics.toList.filter (·.cause.isDuplicateAttribute) =
      ((startTagsOf (unitsOf text o)).map StartTag.names).flatMap Token.repeats := by
  obtain ⟨taken, us, b, hb, hunits, hend⟩ :=
    Builder.exists_atEnd (fun h hpull hx hloc => h.take hpull hx hloc) (runs_startOf text o)
      (Builder.ReadsTags.start text o) (Builder.tokensLeft_ofChars text.toList o.origin o.tracing)
  have hassembler : (builderOf text o).assembler = { b.assembler.commit with output := #[] } := by
    rw [builderOf, Builder.placeRoot_closeAll_assembler]
    exact hend
  have htags : startTagsOf (unitsOf text o) = startTagsOf us ++ b.assembler.startTags := by
    rw [show unitsOf text o = _ from hunits, startTagsOf_append, b.assembler.startTagsOf_commit]
  have htokens : (parse text o reader).tokens.toList = taken.filter fun t => !t.kind.isComment := by
    rw [parse_eq, outlineOf_eq]
    dsimp only
    rw [hassembler]
    exact (congrArg (fun r => r.1.toList) b.assembler.record_commit).trans hb.records.tokens
  constructor
  · rw [htags, htokens]
    exact (hb.tags (htokens ▸ parse_valuesNamed text o reader)).tagsOf
  · have hsource : ∀ d : Diagnostic, d.cause.source ≠ .assembler →
        d.cause.isDuplicateAttribute = false := by
      rintro ⟨cause, position⟩ hs
      cases cause <;> first | rfl | exact absurd rfl hs
    rw [htags, outlineOf_filter_assembler text o hsource, hassembler]
    exact b.assembler.commit_diagnostics ▸ hb.repeats

/-- The start tags of a template are assembled without loss from all tokens that were pulled and are no
comments, and what is reported about their attributes is each one whose name is there already, where it
starts. -/
theorem startTags_whole :
    List.Forall₂ StartTag.KeepsAll (Token.tagRows (parse text o reader).tokens.toList)
        (startTagsOf (unitsOf text o)) ∧
      (parse text o reader).diagnostics.toList.filter (·.cause.isDuplicateAttribute) =
        ((startTagsOf (unitsOf text o)).map StartTag.names).flatMap (locatorOf text o).repeats ∧
      ∃ pulled b x, TakesAll text o pulled b x ∧
        (parse text o reader).tokens.toList = pulled.filter fun t => !t.kind.isComment := by
  obtain ⟨htags, hrepeats⟩ := exists_readsTags text o reader
  have hstarts := (outline_piecesApart text o reader).tokens
  have hnodup : (parse text o reader).tokens.toList.Nodup :=
    hstarts.imp fun hlt heq => absurd (heq ▸ hlt) (Nat.lt_irrefl _)
  have hkeeps := htags.keepsAll hnodup (parse_valuesNamed text o reader)
  have hsub : (((startTagsOf (unitsOf text o)).map StartTag.names).flatMap Token.repeated).Sublist
      (parse text o reader).tokens.toList :=
    (Token.flatMap_repeated_sublist _).trans ((StartTag.names_sublist hkeeps).trans htags.apart)
  have hplaced := Locator.flatMap_repeats fun t ht => (outlineOf_token text o
    (Array.mem_toList_iff.1 (hsub.subset ht))).2
  obtain ⟨pulled, b, x, htakes⟩ := exists_takesAll text o
  refine ⟨hkeeps, parse_filter text o (hrepeats.trans hplaced) ?_ ?_, pulled, b, x, htakes,
    (htakes.recorded reader).1⟩
  · rintro ⟨cause, position⟩ hs
    cases cause <;> first | rfl | cases hs
  · have heq : ((startTagsOf (unitsOf text o)).map StartTag.names).flatMap (locatorOf text o).repeats =
        (((startTagsOf (unitsOf text o)).map StartTag.names).flatMap Token.repeated).map fun t =>
          (locatorOf text o).diagnose (.duplicateAttribute t.value.toLower) t.extent.span.start :=
      List.map_flatMap.symm
    rw [heq, List.pairwise_map]
    exact (hstarts.sublist hsub).imp fun hlt => Nat.le_of_lt hlt

/-- The value stands behind blanks and the `=`, and ends the attribute with its quotes. -/
example : ((startTagsOf (unitsOf "<p a = '1'/>" {})).map fun tag =>
      tag.attributes.toList.map fun x => (x.key.value, x.value.map Token.value, x.extent.span)) =
    [[("a", some "1", ⟨3, 10⟩)]] := by
  decide +kernel

end Template
end TemplateSyntax
