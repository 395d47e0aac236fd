import TemplateSyntax.Proofs.BuilderUnits
import TemplateSyntax.Proofs.RangesNest

/-! # Runs of the tree builder

A start tag closes what it ends, adds its element, and either closes it at once or leaves it open.
`Runs` is what holds of a builder between two tokens: it stands between two units, and its assembler
is behind the tokens that the lexer handed out.  The lexer hands out few enough tokens for a run to
reach the end of the text; then the elements that are left are closed and the root gets its place. -/

namespace TemplateSyntax

open Text (byteLength)

variable {cs : List Char} {l : Locator} {taken : List Token} {a : Assembler} {b : Builder}
  {opened : List Nat} {floor floor' id : Nat} {closing : Prop}

/-- The names of attributes lie in their tag. -/
theorem StartTag.ReadFrom.key_bounds {t : StartTag} (h : t.ReadFrom taken) {x : TagAttribute}
    (hx : x ∈ t.attributes) : t.extent.span.start ≤ x.key.extent.span.start ∧
      x.key.extent.span.start ≤ t.extent.span.stop := by
  have hmem : x.extent.span ∈ t.attributes.toList.map fun x => x.extent.span :=
    List.mem_map_of_mem (by simpa using hx)
  have hstart : x.extent.span.start = x.key.extent.span.start := by
    rw [(h.attributes x hx).extent]
    rfl
  obtain ⟨h1, h2, h3⟩ := h.inOrder.of_mem hmem
  rw [← hstart]
  exact ⟨h1, Nat.le_trans h2 h3⟩

/-- The content of some elements is text. -/
theorem ElementClass.isTextState_of_contentState? {name : String} {s : LexState}
    (h : contentState? name = some s) : Lexer.IsTextState s := by
  unfold contentState? at h
  split at h
  · exact .inr (Option.some.inj h).symm
  · split at h
    · exact .inl (Option.some.inj h).symm
    · exact absurd h nofun

namespace Built

/-- The lexer is told how to read the content of an element that was opened. -/
theorem openContent (h : Built closing cs l taken a b opened floor) (hc : closing)
    (ns : Namespace) (lower : String) :
    Built closing cs l taken a { b with lexer :=
      if ns == .html then
        match ElementClass.contentState? lower with
        | some s => { b.lexer with ns }.enter s
        | none => { b.lexer with ns }
      else { b.lexer with ns } } opened floor := by
  have hns := h.redirect ns b.lexer.interpolating b.lexer.log
  split
  · split
    · next s hs =>
      have htext := ElementClass.isTextState_of_contentState? hs
      have hat := hns.atContent hc
      refine { hns with
        locator := ⟨hns.locator.1, ?_⟩
        tracks := hns.tracks.enter htext hat
        atContent := fun _ => hat.enter htext }
      rw [Lexer.enter_eq]
      exact hns.locator.2
    · exact hns
  · exact hns

end Built

namespace Stands

/-- A start tag adds its element, which is closed at once or is open from there on. -/
theorem onStartTag (h : Stands closing cs l taken a b floor) (hc : closing) {tag : StartTag}
    (hr : tag.ReadFrom taken) (hfloor : floor ≤ tag.extent.span.start)
    (hhi : tag.extent.span.stop ≤ l.host l.index.size) :
    Stands closing cs l taken a (b.onStartTag tag) tag.extent.span.stop := by
  have himplied := h.closeImplied tag.rawName.toLower
  unfold Builder.onStartTag
  dsimp only
  generalize b.closeImplied tag.rawName.toLower = b₀ at himplied
  generalize ElementClass.namespaceOf b₀.currentElement? tag.rawName.toLower tag = ns
  have hkeys : ∀ x ∈ tag.attributes.map (Builder.plainAttribute ns),
      l.host 0 ≤ x.key.extent.span.start ∧ x.key.extent.span.start ≤ l.host l.index.size := by
    intro x hx
    obtain ⟨y, hy, rfl⟩ := Array.mem_map.1 hx
    obtain ⟨h1, h2⟩ := hr.key_bounds hy
    exact ⟨Nat.le_trans (Nat.le_trans h.built.host_le hfloor) h1, Nat.le_trans h2 hhi⟩
  obtain ⟨hbuilt, htree, hopened⟩ := himplied.built.checkNamespaces ns hkeys
  have hchecked : Stands closing cs l taken a
      (b₀.checkNamespaces ns (tag.attributes.map (Builder.plainAttribute ns))) floor :=
    ⟨hopened.symm ▸ hbuilt, by rw [htree, hopened]; exact himplied.noEndTags⟩
  generalize b₀.checkNamespaces ns (tag.attributes.map (Builder.plainAttribute ns)) = b₁ at hchecked
  have hspans : ((tag.attributes.map (Builder.plainAttribute ns)).map
      Attribute.plain).toList.map (fun x => x.extent.span) =
        tag.attributes.toList.map fun x => x.extent.span := by
    simp [Builder.plainAttribute, Attribute.extent]
  obtain ⟨hadd, hsame, hno⟩ := hchecked.addElement
    (e := { name := ns.elementName tag.rawName, rawName := tag.rawName, ns
            selfClosing := tag.selfClosing
            attributes := (tag.attributes.map (Builder.plainAttribute ns)).map .plain
            startTag := tag.extent, endTag := none, children := #[], bindings := #[] })
    rfl rfl rfl
    (fun x hx => by
      obtain ⟨y, hy, rfl⟩ := Array.mem_map.1 hx
      obtain ⟨z, hz, rfl⟩ := Array.mem_map.1 hy
      exact ⟨ns, z, rfl, hr.attributes z hz⟩)
    hfloor (by rw [Element.tagSpans, hspans]; exact hr.inOrder) rfl
  generalize Builder.scheduleDirectives (b₁.addNode _ _) _ _ _ = b₂ at hadd hsame hno
  split
  · -- an element without content is closed at once
    have hclosed := hadd.closeElement (Nat.le_refl _) fun x hx s hs => by
      rw [hno _ (List.mem_cons_self ..) x hx] at hs
      simp at hs
    have hopen : (b₂.closeElement b₁.tree.size).opened = b₁.opened :=
      (Builder.closeElement_opened ..).trans hsame
    refine ⟨hopen.symm ▸ hclosed, ?_⟩
    rw [hopen]
    exact NoEndTags.congr (fun j hj => hno j (List.mem_cons_of_mem _ hj)) fun j _ =>
      Builder.closeElement_tagSpans? ..
  · rw [hsame]
    exact ⟨(hadd.openContent hc ns _).resume _ _ _, hno⟩

end Stands

/-! ## The lexer between two tokens -/

/-- The lexer was told another namespace, whether double braces count, or what to log. -/
def Lexer.Told (x y : Lexer) : Prop :=
  ∃ ns interpolating log, y = { x with ns, interpolating, log }

/-- The lexer is where it was in the text and in the middle of the same token, and may have been
told how to read on. -/
inductive Lexer.Steered (x : Lexer) : Lexer → Prop
  | told {y : Lexer} (h : x.Told y) : x.Steered y
  | entered {y : Lexer} (h : x.Told y) {s : LexState} (hs : IsTextState s) : x.Steered (y.enter s)

namespace Lexer

variable {x y z : Lexer}

theorem Told.refl (x : Lexer) : x.Told x := ⟨x.ns, x.interpolating, x.log, rfl⟩

theorem Told.trans (h : x.Told y) (h' : y.Told z) : x.Told z := by
  obtain ⟨ns, i, log, rfl⟩ := h
  obtain ⟨ns', i', log', rfl⟩ := h'
  exact ⟨ns', i', log', rfl⟩

/-- The lexer is where it was, with the tokens it had, and has as many of them left. -/
structure Unmoved (x y : Lexer) : Prop where
  finished : y.finished = x.finished
  buffer : y.buffer = x.buffer
  tokensLeft : y.tokensLeft = x.tokensLeft

theorem Told.unmoved (h : x.Told y) : x.Unmoved y := by
  obtain ⟨ns, i, log, rfl⟩ := h
  exact ⟨rfl, rfl, rfl⟩

/-- Where content starts, the tokens that are left do not depend on how the lexer reads on. -/
theorem Steered.unmoved (h : x.Steered y) (ha : x.AtContent) : x.Unmoved y := by
  cases h with
  | told h => exact h.unmoved
  | entered h hs =>
    obtain ⟨ns, i, log, rfl⟩ := h
    rw [enter_eq]
    refine ⟨rfl, rfl, ?_⟩
    rcases ha.place with ha | ⟨-, ha⟩
    · simp only [Lexer.tokensLeft, potential, ha, if_true]
    · simp only [Lexer.tokensLeft, potential, ha, Bool.false_eq_true, if_false]

theorem Unmoved.trans (h : x.Unmoved y) (h' : y.Unmoved z) : x.Unmoved z :=
  ⟨h'.finished.trans h.finished, h'.buffer.trans h.buffer, h'.tokensLeft.trans h.tokensLeft⟩

end Lexer

namespace Builder

variable {x : Lexer} {b : Builder}

theorem closeElement_told (h : x.Told b.lexer) (id : Nat) : x.Told (b.closeElement id).lexer := by
  unfold closeElement
  dsimp only
  split
  · exact h.trans ⟨_, true, _, rfl⟩
  · exact h

theorem syncNamespace_told (h : x.Told b.lexer) : x.Told b.syncNamespace.lexer :=
  h.trans ⟨_, _, _, rfl⟩

theorem logged_told (h : x.Told b.lexer) (entry : LogEntry) : x.Told (b.logged entry).lexer :=
  h.trans ⟨_, _, _, rfl⟩

theorem closeImplied_told (h : x.Told b.lexer) (name : String) :
    x.Told (b.closeImplied name).lexer := by
  unfold closeImplied
  split
  · split
    · refine syncNamespace_told (closeElement_told ?_ _)
      exact h
    · exact h
  · exact h

theorem checkNamespaces_told (h : x.Told b.lexer) (ns : Namespace)
    (attributes : Array PlainAttribute) : x.Told (b.checkNamespaces ns attributes).lexer := by
  unfold checkNamespaces
  refine Array.foldl_induction (fun _ (b' : Builder) => x.Told b'.lexer) h fun i b' ih => ?_
  split
  · exact ih
  · split
    · exact ih
    · exact ih

theorem scheduleDirectives_told (h : x.Told b.lexer) (id : Nat) (name : String)
    (attributes : Array PlainAttribute) :
    x.Told (b.scheduleDirectives id name attributes).lexer := by
  unfold scheduleDirectives
  split
  · exact h
  · dsimp only
    split
    · exact h.trans ⟨_, false, _, rfl⟩
    · exact h

theorem closeInnermost_told (h : x.Told b.lexer) (count : Nat) :
    x.Told (b.closeInnermost count).lexer := by
  induction count generalizing b with
  | zero => exact h
  | succ count ih =>
    rw [closeInnermost]
    split
    · refine ih (closeElement_told ?_ _)
      exact h
    · exact h

theorem onEndTag_told (h : x.Told b.lexer) (tag : EndTag) : x.Told (b.onEndTag tag).lexer := by
  unfold onEndTag
  split
  · refine syncNamespace_told (closeInnermost_told ?_ _)
    exact h
  · exact h

theorem onStartTag_steered (h : x.Told b.lexer) (tag : StartTag) :
    x.Steered (b.onStartTag tag).lexer := by
  unfold onStartTag
  dsimp only
  have himplied := closeImplied_told h tag.rawName.toLower
  generalize b.closeImplied tag.rawName.toLower = b₀ at himplied
  generalize ElementClass.namespaceOf b₀.currentElement? tag.rawName.toLower tag = ns
  have hchecked := checkNamespaces_told himplied ns (tag.attributes.map (plainAttribute ns))
  generalize b₀.checkNamespaces ns (tag.attributes.map (plainAttribute ns)) = b₁ at hchecked
  generalize hb : b₁.addNode _ _ = b₂
  have hadd : x.Told b₂.lexer := hb ▸ hchecked
  have hdirs := scheduleDirectives_told hadd b₁.tree.size (ns.elementName tag.rawName)
    (tag.attributes.map (plainAttribute ns))
  generalize b₂.scheduleDirectives _ _ _ = b₃ at hdirs
  split
  · exact .told (closeElement_told hdirs _)
  · have hns : x.Told { b₃.lexer with ns } := hdirs.trans ⟨_, _, _, rfl⟩
    dsimp only
    split
    · split
      · next hs => exact .entered hns (ElementClass.isTextState_of_contentState? hs)
      · exact .told hns
    · exact .told hns

/-- Only a start tag lets the lexer read on in another state. -/
theorem onUnit_steered (h : x.Told b.lexer) (u : MarkupUnit) :
    x.Steered (b.onUnit u).lexer ∧
      ((∀ t, u ≠ .startTag t) → x.Told (b.onUnit u).lexer) := by
  have hlog : x.Told (if b.lexer.tracing then
      b.logged (.pulled b.opened.length u.extent.span) else b).lexer := by
    split
    · exact logged_told h _
    · exact h
  unfold onUnit
  dsimp only
  generalize (if b.lexer.tracing then b.logged (.pulled b.opened.length u.extent.span) else b) =
    b' at hlog
  cases u with
  | startTag tag => exact ⟨onStartTag_steered hlog tag, fun h => absurd rfl (h tag)⟩
  | endTag tag =>
    have h := onEndTag_told hlog tag
    exact ⟨.told h, fun _ => h⟩
  | text run => exact ⟨.told hlog, fun _ => hlog⟩
  | mustache m => exact ⟨.told hlog, fun _ => hlog⟩

end Builder

/-! ## Units -/

namespace Stands

/-- A unit is taken, and the lexer stays where it is. -/
theorem onUnit (h : Stands closing cs l taken a b floor) {u : MarkupUnit} (hr : u.ReadFrom taken)
    (hc : ∀ t, u = .startTag t → closing) (hfloor : floor ≤ u.extent.span.start)
    (hle : u.extent.span.start ≤ u.extent.span.stop)
    (hhi : u.extent.span.stop ≤ l.host l.index.size) :
    Stands closing cs l taken a (b.onUnit u) u.extent.span.stop ∧
      b.lexer.Unmoved (b.onUnit u).lexer := by
  obtain ⟨hsteered, htold⟩ := Builder.onUnit_steered (.refl b.lexer) u
  have hlog : Stands closing cs l taken a (if b.lexer.tracing then
      b.logged (.pulled b.opened.length u.extent.span) else b) floor := by
    split
    · exact ⟨h.built.logged _, h.noEndTags⟩
    · exact h
  have hstays : b.lexer.Unmoved (b.onUnit u).lexer := by
    cases u with
    | startTag t => exact hsteered.unmoved (h.built.atContent (hc t rfl))
    | endTag t | text t | mustache t => exact (htold (by simp)).unmoved
  refine ⟨?_, hstays⟩
  unfold Builder.onUnit
  dsimp only
  cases u with
  | startTag t => exact hlog.onStartTag (hc t rfl) hr hfloor hhi
  | endTag t => exact hlog.onEndTag hfloor hle hhi
  | text t => exact hlog.onText hfloor hle
  | mustache t => exact hlog.onMustache hr hfloor hle

/-- Units that follow each other are taken. -/
theorem onUnits {us : List MarkupUnit} {hi : Nat} (h : Stands closing cs l taken a b floor)
    (hu : UnitsIn closing taken floor us hi) (hhi : hi ≤ l.host l.index.size) :
    Stands closing cs l taken a (us.foldl Builder.onUnit b) hi ∧
      b.lexer.Unmoved (us.foldl Builder.onUnit b).lexer := by
  induction us generalizing b floor with
  | nil => exact ⟨h.raise hu.inOrder, rfl, rfl, rfl⟩
  | cons u us ih =>
    obtain ⟨hfloor, hle, hrest⟩ := hu.inOrder
    obtain ⟨hstands, hstays⟩ := h.onUnit (hu.readFrom u (List.mem_cons_self ..))
      (fun t ht => hu.closed t (ht ▸ List.mem_cons_self ..)) hfloor hle
      (Nat.le_trans hrest.le hhi)
    obtain ⟨h1, h2⟩ := ih hstands ⟨hrest, fun v hv => hu.readFrom v (List.mem_cons_of_mem u hv),
      fun t ht => hu.closed t (List.mem_cons_of_mem u ht)⟩
    exact ⟨h1, hstays.trans h2⟩

end Stands

/-! ## The first tree -/

namespace Tree

variable {extent : Extent} {n : Node}

theorem node?_ofRoot (h : (ofRoot extent).node? id = some n) :
    id = root ∧ n = ⟨.root #[], none, extent⟩ := by
  have hlt : id < 1 := lt_size h
  obtain rfl : id = 0 := Nat.lt_one_iff.1 hlt
  exact ⟨rfl, (Option.some.inj h).symm⟩

theorem children_ofRoot (extent : Extent) (id : Nat) : (ofRoot extent).children id = #[] := by
  cases hn : (ofRoot extent).node? id with
  | none => rw [children, hn]; rfl
  | some n => rw [children_eq hn, (node?_ofRoot hn).2]; rfl

theorem tagSpans?_ofRoot (extent : Extent) (id : Nat) : (ofRoot extent).tagSpans? id = none := by
  cases hn : (ofRoot extent).node? id with
  | none => rw [tagSpans?, element?, hn]; rfl
  | some n => rw [tagSpans?, element?_eq hn, (node?_ofRoot hn).2]; rfl

/-- The root alone nests. -/
theorem NestedUpTo.ofRoot (lo : Nat) (extent : Extent) :
    NestedUpTo lo (ofRoot extent) [] lo := by
  refine ⟨⟨Nat.one_pos, rfl, fun id hpos hlt => ?_, fun p c hc => ?_, fun p => ?_⟩,
    ⟨rfl, tagSpans?_ofRoot _ _⟩, trivial, fun id x hx => ?_, fun id hpos hlt => ?_, by simp, ?_⟩
  · exact absurd (Nat.lt_one_iff.1 hlt) (Nat.ne_of_gt hpos)
  · simp [children_ofRoot] at hc
  · simp [children_ofRoot]
  · simp [tagSpans?_ofRoot] at hx
  · exact absurd (Nat.lt_one_iff.1 hlt) (Nat.ne_of_gt hpos)
  · rw [childSpans, children_ofRoot]
    exact Nat.le_refl lo

end Tree

/-! ## Tokens -/

/-- The units that are complete are taken out of the assembler, which goes on behind them. -/
theorem Assembled.takeOutput {lo p : Nat} {m : Mode} (h : Assembled closing taken lo a m p) :
    ∃ mid ≤ p, UnitsIn closing taken lo a.output.toList mid ∧
      Assembled False taken mid { a with output := #[] } m p := by
  have hreset : ∀ {floor}, Outputs closing taken lo a floor →
      Outputs False taken floor { a with output := #[] } floor := fun ho =>
    ⟨ho.noBreach, .nil _ _ (Nat.le_refl _), ho.tokens⟩
  cases m with
  | content =>
    have hin : InContent closing taken lo a p := h
    obtain ⟨mid, ho, ht⟩ := hin.outputs
    exact ⟨mid, ht.le, ho.units, ⟨mid, hreset ho, ht⟩, hin.opening, hin.inside⟩
  | tag =>
    have hin : InTag closing taken lo a p := h
    obtain ⟨mid, u, ho, hc, hu, hr, h1, h2, h3⟩ := hin.current
    exact ⟨mid, Nat.le_trans h1 (Nat.le_trans h2 h3), ho.units,
      ⟨mid, u, hreset ho, hc, hu, hr, h1, h2, h3⟩, hin.opening, hin.inside⟩
  | interpolation =>
    obtain ⟨o, pre, mid, h1, h2, h3, ho, ht, h4, h5, h6⟩ := InMustache.braces h
    exact ⟨mid, Nat.le_trans ht.le (Nat.le_trans h4 h5), ho.units,
      ⟨o, pre, mid, h1, h2, h3, hreset ho, ht, h4, h5, h6⟩⟩

/-- What holds of a builder between two tokens, behind the tokens `taken`. -/
structure Runs (cs : List Char) (l : Locator) (taken : List Token) (b : Builder) : Prop where
  output : b.assembler.output = #[]
  stands : ∃ floor m p, Stream cs l b.lexer.HasGap taken m p ∧
    Assembled False taken floor b.assembler m (l.host p) ∧
    Stands False cs l taken b.assembler b floor

/-- What holds of a builder when the text is at its end, and all units are taken. -/
structure Ended (cs : List Char) (l : Locator) (taken : List Token) (b : Builder) : Prop where
  ended : b.lexer.finished = true ∧ b.lexer.buffer.ready = []
  assembler : ∃ floor, Outputs False taken floor b.assembler floor
  stands : ∃ floor ≤ l.host l.index.size, Stands True cs l taken b.assembler b floor

/-- A token more was handed out. -/
theorem Built.taking (h : Built False cs l taken a b opened floor) {tok : Token} {x : Lexer}
    {a' : Assembler} (hx : x.Tracks cs (taken ++ [tok])) (hloc : x.locator = l)
    (hc : closing → x.AtContent) :
    Built closing cs l (taken ++ [tok]) a' { b with lexer := x, assembler := a' } opened floor where
  assembler := rfl
  locator := ⟨h.locator.1, hloc⟩
  tracks := hx
  atContent := hc
  noBreach := h.noBreach
  nested := h.nested
  attributes id e he y hy := by
    obtain ⟨ns, z, heq, hz⟩ := h.attributes id e he y hy
    exact ⟨ns, z, heq, hz.snoc tok⟩
  directives := h.directives
  mustaches m hm := by
    obtain ⟨hthere, y, hy, hval⟩ := h.mustaches m hm
    exact ⟨hthere, y, hy.snoc tok, hval⟩

theorem Stands.weaken (h : Stands closing cs l taken a b floor) : Stands False cs l taken a b floor :=
  ⟨{ h.built with atContent := False.elim }, h.noEndTags⟩

namespace Runs

/-- A token is processed, and the units that are ready then were read from the tokens up to it. -/
theorem process (h : Runs cs l taken b) {t : Token} {x : Lexer}
    (hx : x.Tracks cs (taken ++ [t])) (hloc : x.locator = l) :
    ∃ floor mid m p, Stands False cs l taken b.assembler b floor ∧ mid ≤ l.host l.index.size ∧
      Stream cs l x.HasGap (taken ++ [t]) m p ∧
      UnitsIn (t.kind.closesTag = true) (taken ++ [t]) floor
        (b.assembler.process t).output.toList mid ∧
      Assembled False (taken ++ [t]) mid { b.assembler.process t with output := #[] } m
        (l.host p) := by
  obtain ⟨floor, m, p, hstream, hasm, hstands⟩ := h.stands
  obtain ⟨m', p', hstream'⟩ := hx.stream
  rw [hloc] at hstream'
  obtain ⟨m₀, p₀, pt, h₀, hlexed, rfl⟩ := hstream'.snoc_inv
  obtain ⟨rfl, rfl⟩ := h₀.unique hstream
  have hsize : l.index.size = byteLength cs := hloc ▸ hx.size
  have hp' : l.host p' ≤ l.host l.index.size := by
    rw [hsize]
    exact Nat.add_le_add_left hlexed.le_size _
  have hreset : Assembled ((l.token pt p').kind.closesTag = true) taken floor b.assembler m₀
      (l.host p₀) := hasm.reset h.output
  have hprocess := hreset.process hlexed.after
    (fun hk => by rcases hk with hk | hk <;> rw [hk] <;> rfl)
    (Nat.add_le_add_left hlexed.le_start _) (Nat.add_le_add_left hlexed.start_le _)
  obtain ⟨mid, hmid, hunits, hafter⟩ := hprocess.takeOutput
  exact ⟨floor, mid, m', p', hstands, Nat.le_trans hmid hp', hstream', hunits, hafter⟩

/-- A token is taken. -/
theorem token (h : Runs cs l taken b) {t : Token} {x : Lexer}
    (hx : x.Tracks cs (taken ++ [t])) (hloc : x.locator = l)
    (hc : t.kind.closesTag = true → x.AtContent) :
    Runs cs l (taken ++ [t]) { b with lexer := x, assembler := b.assembler.process t }.drain ∧
      x.Unmoved ({ b with lexer := x, assembler := b.assembler.process t }.drain).lexer := by
  obtain ⟨floor, mid, m, p, hstands, hmid, hstream, hunits, hafter⟩ := h.process hx hloc
  have hbuilt : Stands (t.kind.closesTag = true) cs l (taken ++ [t])
      { b.assembler.process t with output := #[] }
      { b with lexer := x, assembler := { b.assembler.process t with output := #[] } } floor :=
    ⟨hstands.built.taking hx hloc hc, hstands.noEndTags⟩
  obtain ⟨hdone, hstays⟩ := hbuilt.onUnits hunits hmid
  unfold Builder.drain
  simp only [Assembler.takeOutput, ← Array.foldl_toList]
  generalize List.foldl Builder.onUnit _ _ = b' at hdone hstays
  have hgaps : Stream cs l b'.lexer.HasGap (taken ++ [t]) m p := by
    obtain ⟨m₁, p₁, h₁⟩ := hdone.built.tracks.stream
    rw [hdone.built.locator.2] at h₁
    obtain ⟨rfl, rfl⟩ := h₁.unique hstream
    exact h₁
  refine ⟨⟨?_, mid, m, p, hgaps, ?_, ?_⟩, hstays⟩
  · rw [hdone.built.assembler]
  · rw [hdone.built.assembler]
    exact hafter
  · rw [hdone.built.assembler]
    exact hdone.weaken

/-- The units that are ready at the end of the text were read from all tokens. -/
theorem commit (h : Runs cs l taken b) {x : Lexer} (hx : x.Tracks cs taken)
    (hloc : x.locator = l) :
    ∃ floor mid p, Stands False cs l taken b.assembler b floor ∧ mid ≤ l.host l.index.size ∧
      UnitsIn True taken floor b.assembler.commit.output.toList mid ∧
      Assembled False taken mid { b.assembler.commit with output := #[] } .content (l.host p) := by
  obtain ⟨floor, m, p, hstream, hasm, hstands⟩ := h.stands
  have hsize : l.index.size = byteLength cs := hloc ▸ hx.size
  have hp : l.host p ≤ l.host l.index.size := by
    rw [hsize]
    exact Nat.add_le_add_left hstream.le_size _
  have hreset : Assembled True taken floor b.assembler m (l.host p) := hasm.reset h.output
  have hcommit : Assembled True taken floor b.assembler.commit .content (l.host p) :=
    hreset.commit trivial
  obtain ⟨mid, hmid, hunits, hafter⟩ := hcommit.takeOutput
  exact ⟨floor, mid, p, hstands, Nat.le_trans hmid hp, hunits, hafter⟩

/-- The text is at its end. -/
theorem ended (h : Runs cs l taken b) {x : Lexer} (hx : x.Tracks cs taken) (hloc : x.locator = l)
    (hf : x.finished = true) (hr : x.buffer.ready = []) :
    Ended cs l taken { b with lexer := x, assembler := b.assembler.commit }.drain := by
  obtain ⟨floor, mid, p, hstands, hmid, hunits, hafter⟩ := h.commit hx hloc
  have hbuilt : Stands True cs l taken { b.assembler.commit with output := #[] }
      { b with lexer := x, assembler := { b.assembler.commit with output := #[] } } floor :=
    ⟨{ hstands.built with
        assembler := rfl
        locator := ⟨hstands.built.locator.1, hloc⟩
        tracks := hx
        atContent := fun _ => ⟨hr, .inl hf⟩ }, hstands.noEndTags⟩
  obtain ⟨hdone, hstays⟩ := hbuilt.onUnits hunits hmid
  unfold Builder.drain
  simp only [Assembler.takeOutput, ← Array.foldl_toList]
  generalize List.foldl Builder.onUnit _ _ = b' at hdone hstays
  refine ⟨⟨hstays.finished.trans hf, ?_⟩, ?_, mid, hmid, ?_⟩
  · rw [hstays.buffer]
    exact hr
  · rw [hdone.built.assembler]
    have hin : InContent False taken mid { b.assembler.commit with output := #[] } (l.host p) :=
      hafter
    obtain ⟨floor', ho, -⟩ := hin.outputs
    exact ⟨floor', ho.noBreach, .nil _ _ (Nat.le_refl _), ho.tokens⟩
  · rw [hdone.built.assembler]
    exact hdone

/-- The builder in front of a text. -/
theorem start (cs : List Char) (origin : Origin) (tracing : Bool) :
    Runs cs (Locator.ofChars cs origin) [] (Builder.ofChars cs (Locator.ofChars cs origin)
      tracing) where
  output := rfl
  stands := by
    refine ⟨(Locator.ofChars cs origin).host 0, .content, 0, .nil, .start _, ?_, ?_⟩
    · exact {
        assembler := rfl
        locator := ⟨rfl, rfl⟩
        tracks := Lexer.tracks_start cs origin tracing
        atContent := False.elim
        noBreach := rfl
        nested := Tree.NestedUpTo.ofRoot _ _
        attributes := fun id e he => by
          obtain ⟨n, hn, hne⟩ := Option.bind_eq_some_iff.1 he
          rw [(Tree.node?_ofRoot hn).2] at hne
          simp [Node.element?] at hne
        directives := fun d hd => by simp [Builder.ofChars] at hd
        mustaches := fun m hm => by simp [Builder.ofChars] at hm }
    · exact fun id hid => by simp [Builder.ofChars] at hid

/-- With enough steps the text is at its end behind a run. -/
theorem run {fuel : Nat} (h : Runs cs l taken b) (hfuel : b.lexer.tokensLeft < fuel) :
    ∃ taken', Ended cs l (taken ++ taken') (Builder.run fuel b) := by
  induction fuel generalizing b taken with
  | zero => omega
  | succ fuel ih =>
    obtain ⟨floor, m, p, -, -, hstands⟩ := h.stands
    have hpull := hstands.built.tracks.pull
    have hloc : b.lexer.pull.2.locator = l :=
      (Lexer.pull_locator _).trans hstands.built.locator.2
    rw [Builder.run]
    generalize b.lexer.pull = handed at hpull hloc
    cases hpull with
    | @token t x hx hlt hc =>
      obtain ⟨hruns, hstays⟩ := h.token hx hloc fun hk => (hc hk).2.2.atContent (hc hk).1
      obtain ⟨taken', hended⟩ := ih hruns (by rw [hstays.tokensLeft]; omega)
      exact ⟨t :: taken', by simpa using hended⟩
    | @ended x hx hf hr => exact ⟨[], by simpa using h.ended hx hloc hf hr⟩

end Runs

/-! ## The whole tree -/

/-- What holds of a builder that has taken the whole text. -/
structure Whole (cs : List Char) (l : Locator) (taken : List Token) (b : Builder) : Prop where
  nests : b.tree.RangesNest
  noBreach : b.breaches = []
  locator : b.lexer.locator = l
  tracks : b.lexer.Tracks cs taken
  ended : b.lexer.finished = true ∧ b.lexer.buffer.ready = []
  assembler : ∃ floor, Outputs False taken floor b.assembler floor
  attributes : AttributesFrom taken b.tree
  directives : DirectivesThere b.tree b.directives
  mustaches : MustachesFrom taken b.tree b.mustaches

namespace Builder

/-- The span of the root is that from its first child to its last. -/
theorem rootSpan_spec (h : b.tree.Linked) :
    (b.tree.children Tree.root = #[] → b.rootSpan.start ≤ b.rootSpan.stop) ∧
      (∀ c, (b.tree.children Tree.root)[0]? = some c →
        b.rootSpan.start = (b.tree.spanOf c).start) ∧
      ∀ c, (b.tree.children Tree.root).back? = some c →
        b.rootSpan.stop = (b.tree.spanOf c).stop := by
  have hnode : ∀ c ∈ b.tree.children Tree.root, ∃ n, b.tree.node? c = some n := fun c hc =>
    Tree.exists_node (h.child _ c hc).2.2
  unfold rootSpan
  dsimp only
  by_cases hnil : b.tree.children Tree.root = #[]
  · rw [hnil]
    exact ⟨fun _ => Nat.le_refl _, by simp, by simp⟩
  · obtain ⟨first, hfirst⟩ : ∃ c, (b.tree.children Tree.root)[0]? = some c :=
      ⟨_, Array.getElem?_eq_getElem (Array.size_pos_iff.2 hnil)⟩
    obtain ⟨init, last, hlast⟩ := Array.eq_push_of_size_ne_zero (mt Array.size_eq_zero_iff.1 hnil)
    obtain ⟨n, hn⟩ := hnode first (Array.mem_of_getElem? hfirst)
    obtain ⟨m, hm⟩ := hnode last (hlast ▸ Array.mem_push_self)
    have hback : (b.tree.children Tree.root).back? = some last := by
      rw [hlast, Array.back?_push]
    rw [hfirst, hback, Option.bind_some, Option.bind_some, hn, hm]
    refine ⟨fun heq => absurd heq hnil, fun c hc => ?_, fun c hc => ?_⟩
    · obtain rfl := Option.some.inj hc
      rw [Tree.spanOf_eq hn]
    · obtain rfl := Option.some.inj hc
      rw [Tree.spanOf_eq hm]

end Builder

/-- What is still open is closed, and the root gets its place. -/
theorem Ended.finish (h : Ended cs l taken b) : Whole cs l taken b.closeAll.placeRoot := by
  obtain ⟨floor, hfloor, hstands⟩ := h.stands
  have hbuilt : Built True cs l taken b.assembler b (b.opened ++ []) floor := by
    rw [List.append_nil]
    exact hstands.built
  obtain ⟨hclosed, -, -⟩ := hbuilt.closeInnermost (List.append_nil _).symm hstands.noEndTags
  have htold : b.lexer.Told b.closeAll.lexer := Builder.closeInnermost_told (.refl _) _
  have hall : Built True cs l taken b.assembler b.closeAll [] floor := hclosed
  generalize b.closeAll = b₀ at hall htold
  obtain ⟨hempty, hfirst, hlast⟩ := Builder.rootSpan_spec hall.nested.linked
  have hwhole : b₀.isWhole Tree.root = true :=
    b₀.isWhole_of hall.nested.linked hall.nested.linked.size
  have hplaced : b₀.placeRoot = { b₀ with tree := b₀.placeRoot.tree } := by
    unfold Builder.placeRoot
    rw [b₀.check_of hwhole]
  have hnests : b₀.placeRoot.tree.RangesNest :=
    hall.nested.rangesNest (fun n => rfl) (fun n => ⟨rfl, rfl⟩) hempty hfirst hlast
  have hkeeps : KeepsParts b₀.tree b₀.placeRoot.tree := .modify (fun n => rfl) fun n c hc => hc
  have helement : ∀ id, b₀.placeRoot.tree.element? id = b₀.tree.element? id := fun id =>
    Tree.element?_modify fun n => rfl
  generalize b₀.placeRoot.tree = t at hplaced hnests hkeeps helement
  rw [hplaced]
  exact {
    nests := hnests
    noBreach := hall.noBreach
    locator := hall.locator.2
    tracks := hall.tracks
    ended := ⟨htold.unmoved.finished.trans h.ended.1, by rw [htold.unmoved.buffer]; exact h.ended.2⟩
    assembler := hall.assembler ▸ h.assembler
    attributes := fun id e he => hall.attributes id e ((helement id).symm.trans he)
    directives := fun d hd => by
      obtain ⟨e, x, he, hx⟩ := hall.directives d hd
      exact ⟨e, x, (helement d.1).trans he, hx⟩
    mustaches := fun m hm => by
      obtain ⟨⟨n, hn, c, hc⟩, hfrom⟩ := hall.mustaches m hm
      obtain ⟨n', hn', hc'⟩ := hkeeps.mustaches m.node n c hn hc
      exact ⟨⟨n', hn', c, hc'⟩, hfrom⟩ }

/-- The steps that a builder is given are enough. -/
theorem Builder.tokensLeft_ofChars (cs : List Char) (origin : Origin) (tracing : Bool) :
    (Builder.ofChars cs (Locator.ofChars cs origin) tracing).lexer.tokensLeft <
      Outline.tokenBound (Builder.ofChars cs (Locator.ofChars cs origin) tracing).lexer := by
  have hle := Lexer.potential_le
    (Builder.ofChars cs (Locator.ofChars cs origin) tracing).lexer
  have hcount : (Builder.ofChars cs (Locator.ofChars cs origin) tracing).lexer.buffer.count = 0 :=
    rfl
  rw [Lexer.tokensLeft, Outline.tokenBound, hcount]
  omega

/-- The text is taken as a whole. -/
theorem exists_whole (cs : List Char) (origin : Origin) (tracing : Bool) :
    ∃ taken, Whole cs (Locator.ofChars cs origin) taken
      (Builder.run (Outline.tokenBound (Builder.ofChars cs (Locator.ofChars cs origin)
        tracing).lexer)
        (Builder.ofChars cs (Locator.ofChars cs origin) tracing)).closeAll.placeRoot := by
  obtain ⟨taken, hended⟩ := (Runs.start cs origin tracing).run
    (Builder.tokensLeft_ofChars cs origin tracing)
  exact ⟨[] ++ taken, hended.finish⟩

end TemplateSyntax
