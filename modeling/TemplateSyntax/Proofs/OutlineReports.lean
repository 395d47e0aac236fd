import TemplateSyntax.Proofs.LexerReports
import TemplateSyntax.Proofs.EmbeddedLocations
import TemplateSyntax.Proofs.TokensApart

/-! # What the outline reports

The assembler reports at the starts of tokens, and the tree builder at offsets that it checks.  So
each diagnostic of the outline is about the markup, and stands at an offset of the template; and so
each gap is the offset of one of its bytes. -/

namespace TemplateSyntax

open Text (byteLength)

/-! ## The assembler -/

namespace Assembler

variable {a a' : Assembler} {t : Token}

/-- What is reported is about syntax, and is reported of a token that is on record. -/
def Reports (a : Assembler) : Prop :=
  ∀ d ∈ a.diagnostics, d.cause.isSyntactic = true ∧ ∃ t ∈ a.tokens, d = t.diagnose d.cause

/-- What decides about the reports. -/
def reporting (a : Assembler) : Array Token × Array Diagnostic := (a.tokens, a.diagnostics)

theorem Reports.congr (h : a.Reports) (heq : a'.reporting = a.reporting) : a'.Reports := by
  obtain ⟨htokens, hdiagnostics⟩ := Prod.mk.inj heq
  unfold Reports
  rw [htokens, hdiagnostics]
  exact h

theorem Reports.keep (h : a.Reports) (t : Token) : (a.keep t).Reports := by
  intro d hd
  obtain ⟨hcause, t', ht', heq⟩ := h d hd
  exact ⟨hcause, t', Array.mem_push.2 (.inl ht'), heq⟩

theorem Reports.report (h : a.Reports) (cause : Cause) (hc : cause.isSyntactic = true)
    (ht : t ∈ a.tokens) : (a.report cause t).Reports := by
  intro d hd
  rcases Array.mem_push.1 hd with hd | rfl
  · exact h d hd
  · exact ⟨hc, t, ht, rfl⟩

theorem reporting_emitCurrent (a : Assembler) : a.emitCurrent.reporting = a.reporting := by
  unfold emitCurrent
  split <;> rfl

theorem reporting_flushInterpolation (a : Assembler) :
    a.flushInterpolation.reporting = a.reporting := by
  unfold flushInterpolation
  split
  · rfl
  · dsimp only
    split
    · rfl
    · exact reporting_emitCurrent { a with opening := none, inside := #[] }

theorem reporting_commit (a : Assembler) : a.commit.reporting = a.reporting :=
  a.flushInterpolation.reporting_emitCurrent.trans a.reporting_flushInterpolation

theorem reporting_text (a : Assembler) (t : Token) : (a.text t).reporting = a.reporting := by
  unfold text
  dsimp only
  split
  · rfl
  · split
    · split
      · rfl
      · exact a.reporting_commit
    · exact a.reporting_commit

theorem Reports.commit (h : a.Reports) : a.commit.Reports := h.congr a.reporting_commit

theorem Reports.text (h : a.Reports) (t : Token) : (a.text t).Reports :=
  h.congr (a.reporting_text t)

theorem Reports.tagPart (h : a.Reports) (t : Token) : (a.tagPart t).Reports := by
  unfold Assembler.tagPart
  split
  · split <;> exact h.keep t
  · exact h.keep t

theorem Reports.identifier (h : a.Reports) (t : Token) : (a.identifier t).Reports := by
  have hkeep := h.keep t
  have ht : t ∈ (a.keep t).tokens := Array.mem_push_self
  unfold Assembler.identifier
  dsimp only
  split
  · split
    · exact Reports.report hkeep (.duplicateAttribute _) rfl ht
    · exact hkeep
  · exact Reports.report hkeep .endTagWithAttributes rfl ht
  · exact hkeep

theorem Reports.literal (h : a.Reports) (t : Token) : (a.literal t).Reports := by
  unfold Assembler.literal
  dsimp only
  split <;> exact h.keep t

theorem Reports.tagClose (h : a.Reports) (t : Token) (selfClosing : Bool) :
    (a.tagClose t selfClosing).Reports := by
  have hkeep := h.keep t
  have ht : t ∈ (a.keep t).tokens := Array.mem_push_self
  unfold Assembler.tagClose
  dsimp only
  refine Reports.commit ?_
  split
  · exact hkeep
  · split
    · exact Reports.report hkeep .endTagWithTrailingSolidus rfl ht
    · exact hkeep
  · exact hkeep

theorem Reports.interpolationStart (h : a.Reports) (t : Token) :
    (a.interpolationStart t).Reports := by
  have hkeep := h.keep t
  unfold Assembler.interpolationStart
  dsimp only
  generalize a.keep t = a' at hkeep
  split
  · exact hkeep.text t
  · have hseparated : ∀ separated : Bool, (if separated then a'.commit else a').Reports :=
      fun separated => by
        split
        · exact hkeep.commit
        · exact hkeep
    exact hseparated _

theorem Reports.interpolationEnd (h : a.Reports) (t : Token) :
    (a.interpolationEnd t).Reports := by
  have hkeep := h.keep t
  unfold Assembler.interpolationEnd
  dsimp only
  generalize a.keep t = a' at hkeep
  split
  · exact hkeep.text t
  · next o _ =>
    split
    · exact Reports.text (Reports.text (a := { a' with opening := none }) hkeep o) t
    · exact Reports.commit (a := { a' with opening := none, inside := #[] }) hkeep

/-- Whatever token is taken, what is reported stands at a token. -/
theorem Reports.process (h : a.Reports) (t : Token) : (a.process t).Reports := by
  unfold Assembler.process
  cases t.kind with
  | comment | bogusComment => exact h
  | tagOpen | endTagOpen => exact (h.keep t).commit
  | identifier => exact h.identifier t
  | association => exact h.tagPart t
  | literal => exact h.literal t
  | tagClose | selfClosingTagClose => exact h.tagClose t _
  | interpolationStart => exact h.interpolationStart t
  | interpolationEnd => exact h.interpolationEnd t
  | text | rcdataText | rawText | cdataText => exact (h.keep t).text t
  | whitespace =>
    dsimp only
    split
    · exact h.tagPart t
    · exact (h.keep t).text t

end Assembler

/-! ## The tree builder -/

namespace Builder

variable {l : Locator} {b : Builder}

/-- If no check of the tree builder has failed, what it reports lies in the template. -/
def Reports (l : Locator) (b : Builder) : Prop :=
  b.locator = l ∧ (b.breaches = [] → ∀ d ∈ b.diagnostics, l.Found d)

theorem Reports.check (h : Reports l b) (ok : Bool) (x : Breach) : Reports l (b.check ok x) :=
  ⟨h.1, fun hb => h.2 (List.append_eq_nil_iff.1 hb).2⟩

theorem Reports.report (h : Reports l b) {cause : Cause} (hc : cause.isMarkup = true)
    (offset : Nat) : Reports l (b.report cause offset) := by
  refine ⟨h.1, fun hb d hd => ?_⟩
  obtain ⟨hexpect, hold⟩ := List.append_eq_nil_iff.1 hb
  rcases Array.mem_push.1 hd with hd | rfl
  · exact h.2 hold d hd
  · have hcovers : b.locator.host 0 ≤ offset ∧ offset ≤ b.locator.host b.locator.index.size := by
      simpa [Locator.covers] using hexpect
    rw [h.1] at hcovers ⊢
    exact Locator.found_diagnose hc hcovers

theorem Reports.closeElement (h : Reports l b) (id : Nat) : Reports l (b.closeElement id) := by
  unfold Builder.closeElement
  dsimp only
  split <;> exact h.check _ _

theorem Reports.syncNamespace (h : Reports l b) : Reports l b.syncNamespace := h

theorem Reports.closeImplied (h : Reports l b) (name : String) : Reports l (b.closeImplied name) := by
  unfold Builder.closeImplied
  split
  · next id outer _ _ _ =>
    split
    · exact (Reports.closeElement (b := { b with opened := outer }) h
        id).syncNamespace
    · exact h
  · exact h

theorem Reports.checkNamespaces (h : Reports l b) (ns : Namespace)
    (attributes : Array PlainAttribute) : Reports l (b.checkNamespaces ns attributes) := by
  unfold Builder.checkNamespaces
  refine Array.foldl_induction (fun _ (b' : Builder) => Reports l b') h fun i b' ih => ?_
  split
  · exact ih
  · split
    · exact ih
    · exact ih.report rfl _

theorem Reports.scheduleDirectives (h : Reports l b) (id : Nat) (name : String)
    (attributes : Array PlainAttribute) : Reports l (b.scheduleDirectives id name attributes) := by
  unfold Builder.scheduleDirectives
  split
  · exact h
  · dsimp only
    split <;> exact h

theorem Reports.addNode (h : Reports l b) (content : NodeContent) (extent : Extent) :
    Reports l (b.addNode content extent) :=
  h.check _ _

theorem Reports.onStartTag (h : Reports l b) (tag : StartTag) : Reports l (b.onStartTag tag) := by
  unfold Builder.onStartTag
  dsimp only
  split
  · exact ((((h.closeImplied _).checkNamespaces _ _).addNode _ _).scheduleDirectives _ _
      _).closeElement _
  · exact (((h.closeImplied _).checkNamespaces _ _).addNode _ _).scheduleDirectives _ _ _

theorem Reports.closeInnermost (h : Reports l b) (count : Nat) :
    Reports l (b.closeInnermost count) := by
  induction count generalizing b with
  | zero => exact h
  | succ count ih =>
    rw [Builder.closeInnermost]
    split
    · next id outer _ =>
      exact ih (Reports.closeElement (b := { b with opened := outer }) h id)
    · exact h

theorem Reports.onEndTag (h : Reports l b) (tag : EndTag) : Reports l (b.onEndTag tag) := by
  unfold Builder.onEndTag
  split
  · dsimp only
    refine Reports.syncNamespace (Reports.closeInnermost ?_ _)
    exact h
  · exact h.report rfl _

/-- Whatever unit is taken, what is reported is checked. -/
theorem Reports.onUnit (h : Reports l b) (u : MarkupUnit) : Reports l (b.onUnit u) := by
  have hlogged : Reports l (if b.lexer.tracing then
      b.logged (.pulled b.opened.length u.extent.span) else b) := by
    split <;> exact h
  unfold Builder.onUnit
  dsimp only
  generalize (if b.lexer.tracing then b.logged (.pulled b.opened.length u.extent.span) else b) =
    b' at hlogged
  cases u with
  | startTag tag => exact hlogged.onStartTag tag
  | endTag tag => exact hlogged.onEndTag tag
  | text run => exact hlogged.addNode _ _
  | mustache m => exact hlogged.addNode (.mustache ⟨none, #[], m.extent⟩) m.extent

end Builder

theorem Lexer.Reports.steered {x y : Lexer} (h : x.Reports) (hy : x.Steered y) : y.Reports := by
  cases hy with
  | told hy =>
    obtain ⟨ns, interpolating, log, rfl⟩ := hy
    exact h
  | entered hy hs =>
    obtain ⟨ns, interpolating, log, rfl⟩ := hy
    exact Reports.enter (l := { x with ns, interpolating, log }) h _

/-! ## Runs -/

namespace Builder

variable {l : Locator} {b : Builder}

/-- What the lexer, the assembler and the tree builder have on record. -/
structure AllReport (l : Locator) (b : Builder) : Prop where
  lexer : b.lexer.Reports
  assembler : b.assembler.Reports
  builder : b.Reports l

theorem closeImplied_assembler (b : Builder) (name : String) :
    (b.closeImplied name).assembler = b.assembler := by
  unfold closeImplied
  split
  · split
    · exact closeElement_assembler _ _
    · rfl
  · rfl

theorem checkNamespaces_assembler (b : Builder) (ns : Namespace)
    (attributes : Array PlainAttribute) :
    (b.checkNamespaces ns attributes).assembler = b.assembler := by
  unfold checkNamespaces
  refine Array.foldl_induction (fun _ (b' : Builder) => b'.assembler = b.assembler) rfl
    fun i b' ih => ?_
  split
  · exact ih
  · split <;> exact ih

theorem scheduleDirectives_assembler (b : Builder) (id : Nat) (name : String)
    (attributes : Array PlainAttribute) :
    (b.scheduleDirectives id name attributes).assembler = b.assembler := by
  unfold scheduleDirectives
  split
  · rfl
  · dsimp only
    split <;> rfl

theorem onStartTag_assembler (b : Builder) (tag : StartTag) :
    (b.onStartTag tag).assembler = b.assembler := by
  have hadded : ∀ (b' : Builder) (content : NodeContent) (extent : Extent),
      (b'.addNode content extent).assembler = b'.assembler := fun _ _ _ => rfl
  unfold onStartTag
  dsimp only
  split
  · rw [closeElement_assembler, scheduleDirectives_assembler, hadded, checkNamespaces_assembler,
      closeImplied_assembler]
  · dsimp only
    rw [scheduleDirectives_assembler, hadded, checkNamespaces_assembler, closeImplied_assembler]

/-- Units do not change the assembler that they come from. -/
theorem onUnit_assembler (b : Builder) (u : MarkupUnit) :
    (b.onUnit u).assembler = b.assembler := by
  have hlogged : (if b.lexer.tracing then b.logged (.pulled b.opened.length u.extent.span)
      else b).assembler = b.assembler := by
    split <;> rfl
  unfold onUnit
  dsimp only
  rw [← hlogged]
  generalize (if b.lexer.tracing then b.logged (.pulled b.opened.length u.extent.span) else b) = b'
  cases u with
  | startTag tag => exact onStartTag_assembler b' tag
  | endTag tag =>
    change (b'.onEndTag tag).assembler = b'.assembler
    unfold onEndTag
    split
    · exact closeInnermost_assembler _ _
    · rfl
  | text run => rfl
  | mustache m => rfl

theorem AllReport.drain (h : b.AllReport l) : b.drain.AllReport l := by
  simp only [Builder.drain, Assembler.takeOutput]
  generalize hstart : ({ b with assembler := _ } : Builder) = start
  have hall : start.AllReport l := hstart ▸ ⟨h.lexer, h.assembler, h.builder⟩
  refine Array.foldl_induction (fun _ (b' : Builder) => b'.AllReport l) hall
    fun i b' ih => ⟨?_, ?_, ih.builder.onUnit _⟩
  · exact ih.lexer.steered (onUnit_steered (.refl _) _).1
  · rw [onUnit_assembler]
    exact ih.assembler

theorem AllReport.run (h : b.AllReport l) (fuel : Nat) : (Builder.run fuel b).AllReport l := by
  induction fuel generalizing b with
  | zero => exact ⟨h.lexer, h.assembler, h.builder.check _ _⟩
  | succ fuel ih =>
    have hpull := h.lexer.pull
    rw [Builder.run]
    split
    · next token lexer heq =>
      rw [heq] at hpull
      exact ih (drain ⟨hpull, h.assembler.process token, h.builder⟩)
    · next lexer heq =>
      rw [heq] at hpull
      exact drain ⟨hpull, h.assembler.commit, h.builder⟩

theorem AllReport.closeAll (h : b.AllReport l) : b.closeAll.placeRoot.AllReport l where
  lexer := h.lexer.steered (.told (closeInnermost_told (.refl _) _))
  assembler := by
    rw [placeRoot_closeAll_assembler]
    exact h.assembler
  builder :=
    (h.builder.closeInnermost _).check _ _

end Builder

namespace Template

variable (text : String) (o : Options)

theorem builderOf_allReport : (builderOf text o).AllReport (locatorOf text o) := by
  have hstart : (Builder.ofChars text.toList (locatorOf text o) o.tracing).AllReport
      (locatorOf text o) :=
    ⟨Lexer.reports_ofChars text.toList (locatorOf text o) o.tracing,
      fun d hd => absurd hd (Array.not_mem_empty d), rfl, fun _ d hd => absurd hd (Array.not_mem_empty d)⟩
  exact (hstart.run _).closeAll

theorem locatorOf_size : (locatorOf text o).index.size = byteLength text.toList := by
  obtain ⟨taken, hwhole⟩ := builderOf_whole text o
  exact hwhole.locator ▸ hwhole.tracks.size

/-- The tokens of the outline start in the template, and their positions are those of their spans. -/
theorem outlineOf_token {t : Token} (ht : t ∈ (outlineOf text o).tokens) :
    ((locatorOf text o).host 0 ≤ t.extent.span.start ∧
      t.extent.span.start ≤ (locatorOf text o).host (locatorOf text o).index.size) ∧
      t.extent = (locatorOf text o).extent t.extent.span := by
  obtain ⟨taken, m, p, hstream, -, htokens, -⟩ := exists_stream text o
  have hin := hstream.inOrder
  simp only [parse_eq] at htokens
  have hmem : t ∈ taken := by
    rw [← Array.mem_toList_iff, htokens] at ht
    exact (List.mem_filter.1 ht).1
  obtain ⟨hlo, hle, hhi⟩ := hin.of_mem (List.mem_map_of_mem hmem)
  have hsize := Nat.add_le_add_left hstream.le_size (locatorOf text o).origin.offset
  rw [locatorOf_size]
  exact ⟨⟨hlo, hle.trans (hhi.trans hsize)⟩, hstream.placed t hmem⟩

/-- Each diagnostic of the outline is about the markup, at an offset of the template. -/
theorem outlineOf_found {d : Diagnostic} (hd : d ∈ (outlineOf text o).diagnostics) :
    (locatorOf text o).Found d := by
  obtain ⟨taken, hwhole⟩ := builderOf_whole text o
  have hreport := builderOf_allReport text o
  simp only [outlineOf_eq, Array.mem_append] at hd
  rcases hd with (hd | hd) | hd
  · exact hwhole.locator ▸ (hreport.lexer hwhole.tracks.noBreach).found d hd
  · obtain ⟨hcause, t, ht, heq⟩ := hreport.assembler d hd
    obtain ⟨hin, hplaced⟩ := outlineOf_token text o (by rwa [outlineOf_eq])
    have hposition : t.extent.loc.start = (locatorOf text o).position t.extent.span.start :=
      congrArg (fun e => e.loc.start) hplaced
    rw [heq]
    exact ⟨Cause.isMarkup_of_isSyntactic hcause, hin, hposition⟩
  · exact hreport.builder.2 hwhole.noBreach d hd

/-- Each gap is the offset of a byte of the template. -/
theorem outlineOf_gap {g : Nat} (hg : g ∈ (outlineOf text o).gaps) :
    ∃ i < byteLength text.toList, g = (locatorOf text o).host i := by
  obtain ⟨taken, hwhole⟩ := builderOf_whole text o
  have hgaps := ((builderOf_allReport text o).lexer hwhole.tracks.noBreach).gaps
  rw [hwhole.locator, locatorOf_size] at hgaps
  rw [outlineOf_eq] at hg
  exact hgaps g (((builderOf text o).lexer.sortedGaps_spec.2 g).1 hg)

end Template

end TemplateSyntax
