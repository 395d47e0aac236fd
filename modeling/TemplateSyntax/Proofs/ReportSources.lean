import TemplateSyntax.Proofs.LexerReads
import TemplateSyntax.Proofs.UnitRun

/-! # Where diagnostics come from

Each cause is found in one place only: in a character as it is taken up, by a state of the lexer, where
tokens are put together, where units become a tree, or in an embedded text.  So the diagnostics of a
template with some cause are those that one part of the reading has on record, in the order in which they
were found if that is the order of their offsets. -/

namespace TemplateSyntax

open Text (byteLength)

/-- What finds something wrong. -/
inductive Cause.Source where
  /-- A character as it is taken up, wherever it stands. -/
  | character
  /-- A state of the lexer. -/
  | state
  /-- The assembler, which puts tokens together. -/
  | assembler
  /-- The builder, which makes a tree of units. -/
  | builder
  /-- An embedded text or the name of a directive. -/
  | embedded
  deriving DecidableEq

/-- What finds a cause. -/
def Cause.source : Cause → Cause.Source
  | .unexpectedNullCharacter | .controlCharacterInInputStream | .noncharacterInInputStream => .character
  | .duplicateAttribute _ | .endTagWithAttributes | .endTagWithTrailingSolidus => .assembler
  | .invalidEndTag _ | .invalidNamespace _ => .builder
  | .invalidDirective _ | .expression _ => .embedded
  | _ => .state

/-- All that is on record more is of one source. -/
def Appends (s : Cause.Source) (ds ds' : Array Diagnostic) : Prop :=
  ∃ more, ds'.toList = ds.toList ++ more ∧ ∀ d ∈ more, d.cause.source = s

section

variable {s : Cause.Source} {ds ds' ds'' : Array Diagnostic} {d : Diagnostic}

theorem Appends.of_eq (h : ds' = ds) : Appends s ds ds' :=
  ⟨[], by rw [h, List.append_nil], by simp⟩

theorem Appends.of_push (h : ds' = ds.push d) (hd : d.cause.source = s) : Appends s ds ds' :=
  ⟨[d], by rw [h, Array.toList_push], by simpa using hd⟩

theorem Appends.trans (h : Appends s ds ds') (h' : Appends s ds' ds'') : Appends s ds ds'' := by
  obtain ⟨more, heq, hmore⟩ := h
  obtain ⟨more', heq', hmore'⟩ := h'
  exact ⟨more ++ more', by rw [heq', heq, List.append_assoc], List.forall_mem_append.2 ⟨hmore, hmore'⟩⟩

theorem Appends.all (h : Appends s ds ds') (hds : ∀ d ∈ ds, d.cause.source = s) :
    ∀ d ∈ ds', d.cause.source = s := by
  obtain ⟨more, heq, hmore⟩ := h
  intro d hd
  rw [← Array.mem_toList_iff, heq, List.mem_append, Array.mem_toList_iff] at hd
  exact hd.elim (hds d) (hmore d)

end

/-! ## The lexer -/

namespace Lexer

variable {l : Lexer}

theorem flushDecoded_diagnostics (l : Lexer) (decoded : String) (stop : Nat) :
    (l.flushDecoded decoded stop).diagnostics = l.diagnostics := by
  unfold flushDecoded
  dsimp only
  split <;> rfl

/-- Where the lexer goes next does not matter. -/
theorem appends_goto {source : Cause.Source} {ds : Array Diagnostic} (h : Appends source ds l.diagnostics)
    (s : LexState) : Appends source ds (l.goto s).diagnostics := h

theorem appends_reconsume {source : Cause.Source} {ds : Array Diagnostic}
    (h : Appends source ds l.diagnostics) (s : LexState) :
    Appends source ds (l.reconsume s).diagnostics := h

theorem codeFault?_source {n : Nat} {cause : Cause} (h : codeFault? n = some cause) :
    cause.source = .state := by
  unfold codeFault? at h
  repeat' split at h
  all_goals
    first
      | exact Option.some.inj h ▸ rfl
      | cases h

theorem finishNumericReference_appends (l : Lexer) (stop : Nat) :
    Appends .state l.diagnostics (l.finishNumericReference stop).diagnostics := by
  unfold finishNumericReference
  dsimp only
  rw [flushDecoded_diagnostics]
  split
  · next cause hcause => exact .of_push rfl (codeFault?_source hcause)
  · exact .of_eq rfl

theorem onNumericReferenceDigits_appends (l : Lexer) (isDigit : Char → Bool) (radix : Nat)
    (s : LexState) (c : Option Char) :
    Appends .state l.diagnostics (l.onNumericReferenceDigits isDigit radix s c).diagnostics := by
  have hmissing : Appends .state l.diagnostics
      (l.report .missingSemicolonAfterCharacterReference).diagnostics := .of_push rfl rfl
  unfold onNumericReferenceDigits
  repeat' split
  · exact .of_eq rfl
  · exact appends_goto (l.finishNumericReference_appends _) _
  · exact appends_reconsume (hmissing.trans (finishNumericReference_appends _ _)) _
  · exact appends_reconsume (hmissing.trans (finishNumericReference_appends _ _)) _

theorem onNamedCharacterReference_appends (l : Lexer) :
    Appends .state l.diagnostics l.onNamedCharacterReference.diagnostics := by
  unfold onNamedCharacterReference
  split
  · exact .of_eq rfl
  · dsimp only [goto, skip]
    repeat' split
    all_goals
      first
        | exact .of_eq rfl
        | exact .of_eq (flushDecoded_diagnostics ..)
        | exact .of_push (flushDecoded_diagnostics ..) rfl

/-- A step reports what its state finds. -/
theorem step_appends (l : Lexer) : Appends .state l.diagnostics l.step.diagnostics := by
  unfold step
  dsimp only
  split
  case h_38 => exact l.onNamedCharacterReference_appends
  case h_43 | h_44 => exact l.onNumericReferenceDigits_appends ..
  all_goals
    simp only [onData, onRcdata, onRawText, onTagOpen, onEndTagOpen, onTagName, onTextLessThanSign,
      onTextEndTagOpen, onTextEndTagName, onBeforeAttributeName, onAttributeName,
      onAfterAttributeName, onBeforeAttributeValue, onAttributeValueQuoted,
      onAttributeValueUnquoted, onAfterAttributeValueQuoted, onSelfClosingStartTag,
      onBogusComment, onMarkupDeclarationOpen, onCommentStart, onCommentStartDash, onComment,
      onCommentLessThanSign, onCommentLessThanSignBang, onCommentLessThanSignBangDash,
      onCommentLessThanSignBangDashDash, onCommentEndDash, onCommentEnd, onCommentEndBang,
      onCdataSection, onCdataSectionBracket, onCdataSectionEnd, onCharacterReference,
      onAmbiguousAmpersand, onNumericCharacterReference, onNumericReferenceStart,
      onInterpolationStart, onInterpolationData, onInterpolationEnd]
    repeat' split
  all_goals first | exact .of_eq rfl | exact .of_push rfl rfl

theorem inputFault?_source {c : Char} {cause : Cause} (h : Cursor.inputFault? c = some cause) :
    cause.source = .character := by
  unfold Cursor.inputFault? at h
  repeat' split at h
  all_goals
    first
      | exact Option.some.inj h ▸ rfl
      | cases h

end Lexer

/-- The diagnostic of a character that is read at an index. -/
def Locator.inputFault? (loc : Locator) (r : Nat × Char) : Option Diagnostic :=
  (Cursor.inputFault? r.2).map fun cause => loc.diagnose cause (loc.host r.1)

theorem Locator.source_of_inputFault? {loc : Locator} {r : Nat × Char} {d : Diagnostic}
    (h : loc.inputFault? r = some d) : d.cause.source = .character := by
  obtain ⟨cause, hcause, rfl⟩ := Option.map_eq_some_iff.1 h
  exact Lexer.inputFault?_source hcause

namespace Lexer

variable {cs : List Char} {loc : Locator} {xs : List Lexer} {l l' : Lexer}

/-- A step that reads a character reports what is wrong with it. -/
theorem entered_diagnostics (l : Lexer) : l.entered.diagnostics.toList =
    l.diagnostics.toList ++ (l.read?.bind l.locator.inputFault?).toList := by
  unfold entered read?
  split
  · simp
  · have hmove : l.moveOn.diagnostics = l.diagnostics ∧ l.moveOn.locator = l.locator ∧
        l.moveOn.cursor = l.cursor.advance := by
      unfold moveOn
      dsimp only
      split <;> exact ⟨rfl, rfl, rfl⟩
    obtain ⟨hdiagnostics, hlocator, hcursor⟩ := hmove
    unfold advance
    dsimp only
    rw [hcursor]
    cases hc : l.cursor.advance.char with
    | none => simp [hdiagnostics]
    | some c =>
      cases hf : Cursor.inputFault? c with
      | none => simp [Locator.inputFault?, hf, hdiagnostics]
      | some cause =>
        simp [Locator.inputFault?, hf, report, reportAt, hdiagnostics, hlocator, hcursor]

/-- What a lexer has on record behind some steps: what its states have found, and what is wrong with the
characters that were read. -/
structure Reported (loc : Locator) (xs : List Lexer) (l : Lexer) : Prop where
  locator : l.locator = loc
  sources : ∀ d ∈ l.diagnostics, d.cause.source = .character ∨ d.cause.source = .state
  characters : l.diagnostics.toList.filter (·.cause.source = .character) =
    (readBy xs).filterMap loc.inputFault?

namespace Reported

theorem congr (h : Reported loc xs l) (hlocator : l'.locator = l.locator)
    (hdiagnostics : l'.diagnostics = l.diagnostics) : Reported loc xs l' :=
  ⟨hlocator.trans h.locator, hdiagnostics ▸ h.sources, hdiagnostics ▸ h.characters⟩

theorem advanceStep (h : Reported loc xs l) : Reported loc (xs ++ [l]) l.advanceStep := by
  obtain ⟨more, hmore, hsource⟩ := l.entered.step_appends
  have hstep : l.advanceStep.diagnostics = l.entered.step.diagnostics := by
    rw [advanceStep_eq]
    split <;> rfl
  have hlist : l.advanceStep.diagnostics.toList =
      l.diagnostics.toList ++ (l.read?.bind loc.inputFault?).toList ++ more := by
    rw [hstep, hmore, entered_diagnostics, h.locator]
  have hread : ∀ d ∈ (l.read?.bind loc.inputFault?).toList, d.cause.source = .character := by
    intro d hd
    obtain ⟨r, -, hr⟩ := Option.bind_eq_some_iff.1 (Option.mem_toList.1 hd)
    exact Locator.source_of_inputFault? hr
  refine ⟨(congrArg Prod.fst l.advanceStep_told).trans h.locator, fun d hd => ?_, ?_⟩
  · rw [← Array.mem_toList_iff, hlist, List.mem_append, List.mem_append] at hd
    rcases hd with (hd | hd) | hd
    · exact h.sources d (Array.mem_toList_iff.1 hd)
    · exact .inl (hread d hd)
    · exact .inr (hsource d hd)
  · have hnone : more.filter (·.cause.source = .character) = [] :=
      List.filter_eq_nil_iff.2 fun d hd => by simp [hsource d hd]
    have hall : (l.read?.bind loc.inputFault?).toList.filter (·.cause.source = .character) =
        (l.read?.bind loc.inputFault?).toList :=
      List.filter_eq_self.2 fun d hd => by simp [hread d hd]
    rw [hlist, List.filter_append, List.filter_append, h.characters, hnone, hall, List.append_nil,
      readBy_concat, List.filterMap_append]
    cases l.read? with
    | none => rfl
    | some r => cases h : loc.inputFault? r <;> simp [h]

theorem carried (cs : List Char) (loc : Locator) : Carried cs (Reported loc) where
  step _ _ h := h.advanceStep
  hand _ h := h.congr rfl rfl
  told htold h := by
    obtain ⟨ns, interpolating, log, rfl⟩ := htold
    exact h.congr rfl rfl
  entered _ _ h := by
    rw [enter_eq]
    exact h.congr rfl rfl

theorem ofChars (cs : List Char) (loc : Locator) (tracing : Bool) :
    Reported loc [] (Lexer.ofChars cs loc tracing) :=
  ⟨rfl, fun _ hd => absurd hd (Array.not_mem_empty _), rfl⟩

end Reported

end Lexer

/-! ## The assembler -/

namespace Assembler

variable {a : Assembler}

theorem commit_diagnostics (a : Assembler) : a.commit.diagnostics = a.diagnostics :=
  congrArg Prod.snd a.reporting_commit

theorem text_diagnostics (a : Assembler) (t : Token) : (a.text t).diagnostics = a.diagnostics :=
  congrArg Prod.snd (a.reporting_text t)

theorem identifier_appends (a : Assembler) (t : Token) :
    Appends .assembler a.diagnostics (a.identifier t).diagnostics := by
  unfold identifier
  dsimp only
  repeat' split
  all_goals first | exact .of_eq rfl | exact .of_push rfl rfl

theorem tagClose_appends (a : Assembler) (t : Token) (selfClosing : Bool) :
    Appends .assembler a.diagnostics (a.tagClose t selfClosing).diagnostics := by
  unfold tagClose
  dsimp only
  rw [commit_diagnostics]
  repeat' split
  all_goals first | exact .of_eq rfl | exact .of_push rfl rfl

theorem tagPart_diagnostics (a : Assembler) (t : Token) : (a.tagPart t).diagnostics = a.diagnostics := by
  unfold tagPart
  repeat' split
  all_goals rfl

theorem literal_diagnostics (a : Assembler) (t : Token) : (a.literal t).diagnostics = a.diagnostics := by
  unfold literal
  dsimp only
  split <;> rfl

theorem interpolationStart_diagnostics (a : Assembler) (t : Token) :
    (a.interpolationStart t).diagnostics = a.diagnostics := by
  have hseparated : ∀ separated : Bool,
      (if separated then (a.keep t).commit else a.keep t).diagnostics = a.diagnostics := by
    intro separated
    split
    · exact commit_diagnostics _
    · rfl
  unfold interpolationStart
  dsimp only
  split
  · exact text_diagnostics _ t
  · exact hseparated _

theorem interpolationEnd_diagnostics (a : Assembler) (t : Token) :
    (a.interpolationEnd t).diagnostics = a.diagnostics := by
  unfold interpolationEnd
  dsimp only
  split
  · exact text_diagnostics _ t
  · split
    · exact (text_diagnostics _ t).trans (text_diagnostics _ _)
    · exact commit_diagnostics { a.keep t with opening := none, inside := #[] }

/-- Only names and ends of tags are found wrong. -/
theorem process_diagnostics (a : Assembler) {t : Token} (hi : t.kind ≠ .identifier)
    (hc : t.kind.closesTag = false) : (a.process t).diagnostics = a.diagnostics := by
  unfold process
  cases hk : t.kind with
  | identifier => exact absurd hk hi
  | tagClose | selfClosingTagClose => rw [hk] at hc; cases hc
  | comment | bogusComment => rfl
  | tagOpen | endTagOpen => exact commit_diagnostics (a.keep t)
  | association => exact a.tagPart_diagnostics t
  | literal => exact a.literal_diagnostics t
  | interpolationStart => exact a.interpolationStart_diagnostics t
  | interpolationEnd => exact a.interpolationEnd_diagnostics t
  | text | rcdataText | rawText | cdataText => exact (a.keep t).text_diagnostics t
  | whitespace =>
    dsimp only
    split
    · exact a.tagPart_diagnostics t
    · exact (a.keep t).text_diagnostics t

theorem process_appends (a : Assembler) (t : Token) :
    Appends .assembler a.diagnostics (a.process t).diagnostics := by
  by_cases hi : t.kind = .identifier
  · simp only [process, hi]
    exact a.identifier_appends t
  · cases hc : t.kind.closesTag with
    | false => exact .of_eq (a.process_diagnostics hi hc)
    | true =>
      unfold process
      cases hk : t.kind with
      | tagClose | selfClosingTagClose => exact a.tagClose_appends t _
      | _ => rw [hk] at hc; cases hc

end Assembler

/-! ## The tree builder -/

namespace Builder

variable {b b' : Builder} {ts : List Token}

theorem checkNamespaces_appends (b : Builder) (ns : Namespace) (attributes : Array PlainAttribute) :
    Appends .builder b.diagnostics (b.checkNamespaces ns attributes).diagnostics := by
  unfold checkNamespaces
  refine Array.foldl_induction
    (fun _ (b' : Builder) => Appends .builder b.diagnostics b'.diagnostics) (.of_eq rfl) fun i b' ih => ?_
  split
  · exact ih
  · split
    · exact ih
    · exact ih.trans (.of_push rfl rfl)

theorem closeImplied_diagnostics (b : Builder) (name : String) :
    (b.closeImplied name).diagnostics = b.diagnostics := by
  obtain ⟨-, -, -, -, hdiagnostics, -⟩ := closeImplied_spec b name
  exact hdiagnostics

theorem onStartTag_appends (b : Builder) (tag : StartTag) :
    Appends .builder b.diagnostics (b.onStartTag tag).diagnostics := by
  have hadded : ∀ (b' : Builder) (content : NodeContent) (extent : Extent),
      (b'.addNode content extent).diagnostics = b'.diagnostics := fun _ _ _ => rfl
  have hchecked := fun ns => (Appends.of_eq (b.closeImplied_diagnostics tag.rawName.toLower)).trans
    (checkNamespaces_appends _ ns (tag.attributes.map (plainAttribute ns)))
  unfold onStartTag
  dsimp only
  split
  · rw [closeElement_diagnostics, scheduleDirectives_diagnostics, hadded]
    exact hchecked _
  · dsimp only
    rw [scheduleDirectives_diagnostics, hadded]
    exact hchecked _

theorem onUnit_appends (b : Builder) (u : MarkupUnit) :
    Appends .builder b.diagnostics (b.onUnit u).diagnostics := by
  obtain ⟨log, hlog⟩ := b.onUnit_withLog u
  rw [hlog]
  cases u with
  | startTag tag => exact onStartTag_appends (b.withLog log) tag
  | endTag tag =>
    show Appends .builder b.diagnostics ((b.withLog log).onEndTag tag).diagnostics
    unfold onEndTag
    split
    · exact .of_eq (closeInnermost_diagnostics _ _)
    · exact .of_push rfl rfl
  | text run => exact .of_eq rfl
  | mustache m => exact .of_eq rfl

/-- What the assembler has on record comes from it, and so does what the builder has. -/
structure Sourced (b : Builder) : Prop where
  assembler : ∀ d ∈ b.assembler.diagnostics, d.cause.source = .assembler
  builder : ∀ d ∈ b.diagnostics, d.cause.source = .builder

theorem Sourced.drain (h : b.Sourced) : b.drain.Sourced := by
  refine ⟨b.drain_assembler ▸ h.assembler, ?_⟩
  simp only [Builder.drain, Assembler.takeOutput]
  generalize hstart : ({ b with assembler := _ } : Builder) = start
  have hbuilder : ∀ d ∈ start.diagnostics, d.cause.source = .builder := hstart ▸ h.builder
  exact Array.foldl_induction (fun _ (b' : Builder) => ∀ d ∈ b'.diagnostics, d.cause.source = .builder)
    hbuilder fun i b' ih => (b'.onUnit_appends _).all ih

theorem Sourced.takes (h : b.Sourced) (ht : b.Takes ts b') : b'.Sourced := by
  induction ht with
  | nothing => exact h
  | @token ts b' t x _ _ ih =>
    exact Sourced.drain (b := { b' with lexer := x, assembler := b'.assembler.process t })
      ⟨(b'.assembler.process_appends t).all ih.assembler, ih.builder⟩

theorem Sourced.atEnd (h : b.Sourced) (x : Lexer) : (b.atEnd x).Sourced :=
  Sourced.drain (b := { b with lexer := x, assembler := b.assembler.commit })
    ⟨b.assembler.commit_diagnostics ▸ h.assembler, h.builder⟩

end Builder

/-! ## The diagnostics of a template -/

namespace Template

variable (text : String) (o : Options) {reader : Script.Reader}

theorem builderOf_sourced : (builderOf text o).Sourced := by
  obtain ⟨ts, b, x, hall⟩ := exists_takesAll text o
  have hstart : (startOf text o).Sourced :=
    ⟨fun _ hd => absurd hd (Array.not_mem_empty _), fun _ hd => absurd hd (Array.not_mem_empty _)⟩
  obtain ⟨hassembler, hbuilder⟩ := (hstart.takes hall.takes).atEnd x
  refine ⟨?_, ?_⟩
  · rw [hall.builderOf, Builder.placeRoot_closeAll_assembler]
    exact hassembler
  · rw [hall.builderOf, Builder.placeRoot_closeAll_diagnostics]
    exact hbuilder

/-- Behind the outline the whole text is gone through, and what is wrong with the characters that were
read is on record. -/
theorem exists_reported : ∃ xs,
    Text.Scanned text.toList (Lexer.readBy xs) (byteLength text.toList) ∧
      Lexer.Reported (locatorOf text o) xs (builderOf text o).lexer := by
  obtain ⟨xs, hcarried⟩ := exists_carried text o
  obtain ⟨taken, hwhole⟩ := builderOf_whole text o
  have hwalked := hcarried _ (Lexer.Walked.carried _)
    (.ofChars text.toList (locatorOf text o) o.tracing)
  refine ⟨xs, hwalked.ended hwhole.ended.1 ▸ hwalked.scanned, ?_⟩
  exact hcarried _ (Lexer.Reported.carried _ _) (.ofChars text.toList (locatorOf text o) o.tracing)

/-- Diagnostics that are in order already stay as they are when all are put in order. -/
theorem filter_inOrder {p : Diagnostic → Bool} {ds : List Diagnostic}
    (h : (ds.filter p).Pairwise fun a b => a.offset ≤ b.offset) :
    (inOrder ds).filter p = ds.filter p := by
  have hsub : (ds.filter p).Sublist (inOrder ds) := by
    refine List.sublist_mergeSort (fun a b c => ?_) (fun a b => ?_) ?_ List.filter_sublist
    · simp only [decide_eq_true_eq]
      exact Nat.le_trans
    · simp only [Bool.or_eq_true, decide_eq_true_eq]
      exact Nat.le_total ..
    · simpa using h
  have hfilter : (ds.filter p).Sublist ((inOrder ds).filter p) := by simpa using hsub.filter p
  exact (hfilter.eq_of_length ((List.mergeSort_perm ds _).filter p).length_eq.symm).symm

variable {p : Diagnostic → Bool}

/-- The diagnostics of some causes, where those that are on record are in order. -/
theorem parse_filter {found : List Diagnostic}
    (houtline : (outlineOf text o).diagnostics.toList.filter p = found)
    (hembedded : ∀ d, d.cause.source = .embedded → p d = false)
    (hsorted : found.Pairwise fun a b => a.offset ≤ b.offset) :
    (parse text o reader).diagnostics.toList.filter p = found := by
  have hread : ((progressOf text o reader).log.toList.filterMap
      (LogEntry.diagnostic? (locatorOf text o))).filter p = [] := by
    refine List.filter_eq_nil_iff.2 fun d hd => ?_
    obtain ⟨x, -, hx⟩ := List.mem_filterMap.1 hd
    cases x with
    | expressionFault _ _ | keyFault _ _ =>
      obtain rfl := Option.some.inj hx
      rw [hembedded _ rfl]
      exact Bool.false_ne_true
    | transition _ _ _ | pulled _ _ | interpolationOff _ | converting _ _ => cases hx
  have hall : ((outlineOf text o).diagnostics.toList ++ (progressOf text o reader).log.toList.filterMap
      (LogEntry.diagnostic? (locatorOf text o))).filter p = found := by
    rw [List.filter_append, hread, List.append_nil, houtline]
  simp only [parse_eq]
  rw [filter_inOrder (hall ▸ hsorted), hall]

/-- What the lexer has found, and nothing else, has these causes. -/
theorem outlineOf_filter_lexer
    (hp : ∀ d, d.cause.source ≠ .character → d.cause.source ≠ .state → p d = false) :
    (outlineOf text o).diagnostics.toList.filter p =
      (builderOf text o).lexer.diagnostics.toList.filter p := by
  obtain ⟨hassembler, hbuilder⟩ := builderOf_sourced text o
  have hnone : ∀ {s : Cause.Source} {ds : Array Diagnostic}, s ≠ .character → s ≠ .state →
      (∀ d ∈ ds, d.cause.source = s) → ds.toList.filter p = [] := by
    intro s ds hc hs hds
    refine List.filter_eq_nil_iff.2 fun d hd => ?_
    have hsource := hds d (Array.mem_toList_iff.1 hd)
    rw [hp d (hsource ▸ hc) (hsource ▸ hs)]
    exact Bool.false_ne_true
  simp only [outlineOf_eq, Array.toList_append, List.filter_append]
  rw [hnone (by decide) (by decide) hassembler, hnone (by decide) (by decide) hbuilder,
    List.append_nil, List.append_nil]

/-- What the assembler has found, and nothing else, has these causes. -/
theorem outlineOf_filter_assembler (hp : ∀ d, d.cause.source ≠ .assembler → p d = false) :
    (outlineOf text o).diagnostics.toList.filter p =
      (builderOf text o).assembler.diagnostics.toList.filter p := by
  obtain ⟨xs, -, hreported⟩ := exists_reported text o
  obtain ⟨-, hbuilder⟩ := builderOf_sourced text o
  have hnone : ∀ {ds : Array Diagnostic}, (∀ d ∈ ds, d.cause.source ≠ .assembler) →
      ds.toList.filter p = [] := by
    intro ds hds
    refine List.filter_eq_nil_iff.2 fun d hd => ?_
    rw [hp d (hds d (Array.mem_toList_iff.1 hd))]
    exact Bool.false_ne_true
  have hlexer : (builderOf text o).lexer.diagnostics.toList.filter p = [] := hnone fun d hd => by
    rcases hreported.sources d hd with h | h <;> rw [h] <;> decide
  have hunits : (builderOf text o).diagnostics.toList.filter p = [] := hnone fun d hd => by
    rw [hbuilder d hd]
    decide
  simp only [outlineOf_eq, Array.toList_append, List.filter_append]
  rw [hlexer, hunits, List.append_nil, List.nil_append]

end Template
end TemplateSyntax
