import TemplateSyntax.Proofs.ElementOrigin
import TemplateSyntax.Proofs.RawTextUnits
import TemplateSyntax.Proofs.ReadTree

/-! # Elements whose content is raw text

Behind the start tag of such an element the lexer reads raw text, up to the end tag that the rule finds.
The tokens of the raw text make one text, which is the only child of the element, and the end tag behind
it is the one that closes the element. -/

namespace TemplateSyntax

open Text (byteLength unifyBreaks sameLetters From Between)

/-- The names of elements with raw text are words. -/
theorem ElementClass.isWord_of_contentState? {name : String}
    (h : ElementClass.contentState? name = some .rawText) : IsWord name := by
  have hmem : name ∈ ElementClass.rawTextElements := by
    unfold ElementClass.contentState? at h
    split at h
    · next hname => exact List.contains_iff_mem.1 hname
    · split at h <;> cases h
  have hall : ElementClass.rawTextElements.all (fun s => s != "" && s.toList.all Char.isLower) = true := by
    decide
  have hword := List.all_eq_true.1 hall name hmem
  simpa [IsWord, List.all_eq_true] using hword

/-! ## The content of an element -/

namespace Builder

variable {b b' : Builder} {id k : Nat} {outer : List Nat} {e : Element} {run? : Option TextRun}
  {run : TextRun} {tag : EndTag} {ms : List (Builder × MarkupUnit)} {m : Builder × MarkupUnit}

theorem Follows.of_nil (h : b.Follows [] b') : b'.tree = b.tree ∧ b'.opened = b.opened := by
  generalize hms : ([] : List (Builder × MarkupUnit)) = ms at h
  induction h with
  | nothing => exact ⟨rfl, rfl⟩
  | unit => simp at hms
  | read h x a ih => exact ih hms

/-- The first unit is taken by a builder with the same tree. -/
theorem Follows.uncons (h : b.Follows (m :: ms) b') : m.1.tree = b.tree ∧ m.1.opened = b.opened ∧
    (m.1.onUnit m.2).Follows ms b' := by
  have hall : b.Follows ([] ++ m :: ms) b' := h
  obtain ⟨hto, hfrom⟩ := hall.split
  obtain ⟨htree, hopened⟩ := hto.of_nil
  exact ⟨htree, hopened, hfrom⟩

/-- The element has the text as its only child, which is closed, or it has no child. -/
def HasText (b : Builder) (id : Nat) (e : Element) : Option TextRun → Prop
  | none => e.children = #[]
  | some run => ∃ k, e.children = #[k] ∧ b.Shut k ∧
    b.tree.node? k = some ⟨.text run.value, some id, run.extent⟩

/-- Of the open elements this one is the innermost, with the text as its content. -/
structure Holds (b : Builder) (id : Nat) (outer : List Nat) (e : Element) (run? : Option TextRun) :
    Prop where
  laid : b.Laid
  opened : b.opened = id :: outer
  element : b.tree.element? id = some e
  text : b.HasText id e run?

theorem HasText.follows (h : b.HasText id e run?) (hf : b.Follows ms b') : b'.HasText id e run? := by
  cases run? with
  | none => exact h
  | some run =>
    obtain ⟨k, hchild, hshut, hnode⟩ := h
    have hstays := hshut.follows hf
    exact ⟨k, hchild, hstays.shut, hstays.node.trans hnode⟩

theorem HasText.congr {e' : Element} (h : b.HasText id e run?) (he : e'.children = e.children) :
    b.HasText id e' run? := by
  cases run? with
  | none => exact he.trans h
  | some run =>
    obtain ⟨k, hchild, hk⟩ := h
    exact ⟨k, he.trans hchild, hk⟩

theorem Holds.congr (h : b.Holds id outer e run?) (htree : b'.tree = b.tree)
    (hopened : b'.opened = b.opened) : b'.Holds id outer e run? := by
  have hshut : ∀ {k}, b.Shut k → b'.Shut k := fun hk =>
    ⟨htree ▸ hk.there, hk.ne_root, hopened ▸ hk.not_mem⟩
  refine ⟨?_, hopened.trans h.opened, by rw [htree, h.element], ?_⟩
  · rw [Laid, htree, hopened]
    exact h.laid
  · cases run? with
    | none => exact h.text
    | some run =>
      obtain ⟨k, hchild, hk, hnode⟩ := h.text
      exact ⟨k, hchild, hshut hk, htree ▸ hnode⟩

/-- A text is added to the element. -/
theorem Holds.onText (h : b.Holds id outer e none) (run : TextRun) :
    (b.onUnit (.text run)).Holds id outer { e with children := #[b.tree.size] } (some run) := by
  obtain ⟨log, hunit⟩ := b.onUnit_withLog (.text run)
  have hcurrent : b.current = id := by rw [current, h.opened]; rfl
  have htree : (b.onUnit (.text run)).tree = b.tree.append id (.text run.value) run.extent := by
    rw [hunit, ← hcurrent]
    rfl
  have hopened : (b.onUnit (.text run)).opened = b.opened := by
    rw [hunit]
    rfl
  have hlt : ∀ j ∈ b.opened, j < b.tree.size := fun j hj => (h.laid.spine.lt_size h.laid.linked hj).2
  have hid : id < b.tree.size := hlt id (h.opened ▸ List.mem_cons_self ..)
  obtain ⟨⟨content, parent, extent⟩, hnode, he⟩ := Option.bind_eq_some_iff.1 h.element
  cases content with
  | root _ | text _ | mustache _ => cases he
  | element e' =>
    obtain rfl := Option.some.inj he
    refine ⟨h.laid.onUnit _, hopened.trans h.opened, ?_, b.tree.size, rfl, ⟨?_, ?_, ?_⟩, ?_⟩
    · have hchild : e'.children = #[] := h.text
      rw [htree, Tree.element?, Tree.node?_append (Nat.ne_of_lt hid), Tree.node?_modify_self hnode]
      show some { e' with children := e'.children.push b.tree.size } = _
      rw [hchild]
      rfl
    · rw [htree, Tree.size_append]
      exact Nat.lt_succ_self _
    · exact Nat.ne_of_gt (Nat.zero_lt_of_lt hid)
    · rw [hopened]
      exact fun hmem => Nat.lt_irrefl _ (hlt _ hmem)
    · rw [htree, Tree.node?_append_self]

/-- The end tag of the element closes it. -/
theorem Holds.onEndTag (h : b.Holds id outer e run?) (htag : sameLetters e.name tag.rawName = true) :
    (b.onUnit (.endTag tag)).Shut id ∧
      (b.onUnit (.endTag tag)).tree.element? id = some { e with endTag := some tag.extent } ∧
        (b.onUnit (.endTag tag)).HasText id e run? := by
  have ho : b.opened = [] ++ id :: outer := h.opened
  have hcloses := h.laid.closes ho ⟨e, h.element, htag⟩ (List.forall_mem_nil _)
  obtain ⟨e', he', -, hend⟩ := hcloses.target
  obtain rfl := Option.some.inj (h.element.symm.trans he')
  have hid : id ∈ b.opened := h.opened ▸ List.mem_cons_self ..
  have hnodup : (id :: outer).Nodup := h.opened ▸ h.laid.spine.nodup h.laid.linked
  refine ⟨⟨?_, ?_, ?_⟩, hend, h.text.follows (Follows.nothing.unit _)⟩
  · obtain ⟨n, hn, -⟩ := Option.bind_eq_some_iff.1 hend
    exact Tree.lt_size hn
  · exact Nat.ne_of_gt (h.laid.spine.lt_size h.laid.linked hid).1
  · rw [hcloses.opened]
    exact (List.nodup_cons.1 hnodup).1

/-- The element gets its text, if there is one. -/
theorem Holds.onUnits (h : b.Holds id outer e none) {us : List MarkupUnit} (hf : b.Follows ms b')
    (hms : ms.map Prod.snd = run?.toList.map MarkupUnit.text ++ us) :
    ∃ (c : Builder) (e' : Element) (ms' : List (Builder × MarkupUnit)), c.Holds id outer e' run? ∧
      e'.name = e.name ∧ c.Follows ms' b' ∧ ms'.map Prod.snd = us := by
  cases run? with
  | none => exact ⟨b, e, ms, h, rfl, hf, hms⟩
  | some run =>
    obtain ⟨⟨c, u⟩, ms, rfl, hu, hbehind⟩ := List.map_eq_cons_iff.1 hms
    obtain ⟨htree, hopened, hf⟩ := hf.uncons
    obtain rfl : u = .text run := hu
    exact ⟨_, _, ms, (h.congr htree hopened).onText run, rfl, hf, hbehind⟩

/-- The element gets its end tag, and stays as it is then. -/
theorem Holds.onEndTag_follows (h : b.Holds id outer e run?) {us : List MarkupUnit}
    (hf : b.Follows ms b') (hms : ms.map Prod.snd = .endTag tag :: us)
    (htag : sameLetters e.name tag.rawName = true) :
    b'.tree.element? id = some { e with endTag := some tag.extent } ∧ b'.HasText id e run? := by
  obtain ⟨⟨c, u⟩, ms, rfl, hu, -⟩ := List.map_eq_cons_iff.1 hms
  obtain ⟨htree, hopened, hf⟩ := hf.uncons
  obtain rfl : u = .endTag tag := hu
  obtain ⟨hshut, helement, htext⟩ := (h.congr htree hopened).onEndTag htag
  refine ⟨?_, htext.follows hf⟩
  rw [Tree.element?, (hshut.follows hf).node]
  exact helement

end Builder

/-! ## Behind the start tag -/

namespace Template

variable {text : String} {o : Options} {reader : Script.Reader} {tag : StartTag} {ts : List Token}
  {b : Builder} {t : Token} {x : Lexer} {front behind : List (Builder × MarkupUnit)} {e : Element}
  {id : Nat}

namespace TakesStartTag

section

variable (h : TakesStartTag text o tag ts b t x front behind)
include h

theorem take_eq :
    b.take t x = (b.inFront x (b.assembler.process t)).onUnit (.startTag tag) := by
  rw [Builder.take, ← Builder.takeUnits_all, Builder.takeUnits, h.output]
  rfl

theorem runs : Runs text.toList (locatorOf text o) (ts ++ [t]) (b.take t x) :=
  (h.takes.token h.pull).runs (runs_startOf text o)

/-- The rest of the units is taken behind the start tag. -/
theorem follows : (b.take t x).Follows behind (behindUnits text o) := by
  have hall := follows_moments text o
  rw [h.moments] at hall
  rw [h.take_eq]
  exact hall.split.2

/-- The lexer stands behind the `>` of the start tag, and no token is left over. -/
theorem stands : ∃ pre r, text.toList = pre ++ '>' :: r ∧ x.cursor.index = byteLength pre + 1 ∧
    x.cursor.rest = r ∧ t.extent.span.stop = (locatorOf text o).host (byteLength pre + 1) ∧
      x.locator = locatorOf text o ∧ x.BehindTag ∧ x.finished = false ∧ x.buffer.ready = [] ∧
        x.buffer.heldBack = none ∧ x.buffer.lastStartTagName = tag.rawName.toLower := by
  have hruns := h.takes.runs (runs_startOf text o)
  have hmode := h.takes.keepsMode (runs_startOf text o) (Builder.keepsMode_ofChars _ _ _)
  have hrecent := h.takes.recent (runs_startOf text o) (Lexer.recent_ofChars _ _ _)
  obtain ⟨-, -, hinside⟩ := (hmode.fits_process hruns h.pull).start tag (by rw [h.output]; simp)
  obtain ⟨floor, m, p, -, -, hstands⟩ := hruns.stands
  have hup := hrecent.pull hstands.built.tracks
  rw [h.pull] at hup
  have hstop := hstands.built.tracks.pull_stop h.pull h.closes
  cases hruns.next with
  | ended hpull' _ _ _ => exact absurd (h.pull.symm.trans hpull') (by simp)
  | token hpull' hx hloc _ _ hc =>
    obtain ⟨ht, rfl⟩ := Prod.mk.inj (h.pull.symm.trans hpull')
    obtain rfl := Option.some.inj ht
    obtain ⟨hready, hfinished, hbehind, -⟩ := hc h.closes
    obtain ⟨hfrom, hbuilds⟩ := hbehind.builds hx hfinished
    obtain ⟨⟨hindex, post, hlast⟩, -⟩ := hup.behind hbehind.again hbehind.char
    have hpost := hlast.append
    rw [← hindex] at hpost
    obtain rfl := hfrom.unique hpost
    obtain ⟨pre, htext, hpre⟩ := hlast
    have hat : x.cursor.index = byteLength pre + 1 := by rw [hindex, ← hpre]; rfl
    exact ⟨pre, _, htext, hat, rfl, by rw [hstop, hloc, hat], hloc, hbehind, hfinished, hready,
      hbuilds.notHeld, hinside.last⟩

end

/-- Behind the start tag of an element with raw text, that text is read. -/
theorem readsRawText (h : TakesStartTag text o tag ts b t x front behind)
    (he : (b.take t x).tree.element? b.tree.size = some e) (hns : e.ns = .html)
    (hleaf : e.isLeaf = false) (hs : ElementClass.contentState? tag.rawName.toLower = some .rawText) :
    ∃ pre r, text.toList = pre ++ '>' :: r ∧
      t.extent.span.stop = (locatorOf text o).host (byteLength pre + 1) ∧
        (b.take t x).ReadsRawText [] (locatorOf text o) tag.rawName.toLower (byteLength pre + 1)
          (byteLength pre + 1) [] [] r := by
  obtain ⟨pre, r, htext, hindex, hrest, hstop, hloc, hbehind, hfinished, hready, hheld, hlast⟩ := h.stands
  obtain ⟨log, hunit⟩ := (b.inFront x (b.assembler.process t)).onUnit_withLog (.startTag tag)
  have htake : b.take t x = ((b.inFront x (b.assembler.process t)).withLog log).onStartTag tag :=
    h.take_eq.trans hunit
  obtain ⟨y, htold, henters⟩ := Builder.onStartTag_enters (htake ▸ he) hns hleaf hs
  rw [← htake, Lexer.enter_eq] at henters
  have hplace : (b.take t x).lexer.place = { x.place with state := .rawText } := by
    rw [henters]
    exact congrArg (fun p => { p with state := .rawText }) htold.place
  have hready' : (b.take t x).lexer.buffer.ready = [] :=
    (congrArg (fun p => p.buffer.ready) hplace).trans hready
  have hin : (b.take t x).lexer.place.InRawText (locatorOf text o) tag.rawName.toLower
      (byteLength pre + 1) (byteLength pre + 1) [] [] := by
    rw [hplace]
    refine ⟨hloc, rfl, hfinished, hheld, hlast, ?_⟩
    show RawSoFar _ _ _ ([] ++ x.buffer.ready) x.buffer.current []
    rw [hready, hbehind.idle]
    exact .nothing .nothing
  have hfaces : (b.take t x).lexer.Faces (byteLength pre + 1) r := by
    rw [henters]
    exact (htold.faces (.next hbehind.again hindex hrest)).congr rfl rfl
  refine ⟨pre, r, htext, hstop, ?_⟩
  exact (Builder.Lexes.nothing (b.take t x)).readsRawText (ElementClass.isWord_of_contentState? hs)
    h.runs hin hready' hfaces

/-- The tokens behind a start tag make the units behind it. -/
theorem exists_rest (h : TakesStartTag text o tag ts b t x front behind) :
    ∃ rest c, (b.take t x).Takes rest c ∧ c.lexer.pull.1 = none ∧
      Grouped (rest.filter fun t => !t.kind.isComment) (behind.map Prod.snd) ∧
        SeparateTexts (behind.map Prod.snd) := by
  obtain ⟨all, c, y, hall⟩ := exists_takesAll text o
  obtain ⟨rest, rfl, hrest⟩ := (h.takes.token h.pull).suffix hall.takes (by rw [hall.pull])
  have hunits : unitsOf text o = front.map Prod.snd ++ [.startTag tag] ++ behind.map Prod.snd := by
    rw [← moments_units, h.moments]
    simp
  have htokens : (parse text o).tokens.toList = ((ts ++ [t]).filter fun t => !t.kind.isComment) ++
      rest.filter fun t => !t.kind.isComment := by
    rw [← List.filter_append, (hall.recorded Script.parse).1]
  have hshares := outline_sharesOut text o Script.parse
  have hgrouped := hshares.grouped
  have hseparate := hshares.separate
  rw [hunits] at hgrouped hseparate
  refine ⟨rest, c, hrest, by rw [hall.pull], ?_, (List.isChain_append.1 hseparate).2.1⟩
  exact (outline_piecesApart text o Script.parse).grouped_behind hgrouped h.grouped htokens

end TakesStartTag

/-- What is read of the raw text `r` that starts at `lo`: tokens of raw text go up to `p`, and they make
the next unit; and the end tag there, if there is one, is the unit behind it. -/
structure ReadsRaw (text : String) (o : Options) (name : String) (lo : Nat) (r : List Char) (p : Nat)
    (us : List MarkupUnit) : Prop where
  ends : RawTextEnds name r p
  tokens : ∃ ts c new, (startOf text o).Takes ts c ∧ (∀ t ∈ new, t ∈ ts) ∧
    RawTokens (locatorOf text o) lo (lo + byteLength (r.take p)) new (unifyBreaks (r.take p))
  units : ∃ us', us = (rawRun? (locatorOf text o) lo (r.take p)).toList.map MarkupUnit.text ++ us' ∧
    ((p = r.length ∧ us' = []) ∨ ∃ tag us'', us' = .endTag tag :: us'' ∧
      sameLetters tag.rawName name = true ∧
        tag.extent.span.start = (locatorOf text o).host (lo + byteLength (r.take p)))

/-- Raw text is read behind the start tag of an element that has it as its content. -/
theorem TakesStartTag.readsRaw (h : TakesStartTag text o tag ts b t x front behind)
    (he : (b.take t x).tree.element? b.tree.size = some e) (hns : e.ns = .html)
    (hleaf : e.isLeaf = false) (hs : ElementClass.contentState? tag.rawName.toLower = some .rawText) :
    ∃ pre r p, text.toList = pre ++ '>' :: r ∧
      t.extent.span.stop = (locatorOf text o).host (byteLength pre + 1) ∧
        ReadsRaw text o tag.rawName.toLower (byteLength pre + 1) r p (behind.map Prod.snd) := by
  obtain ⟨pre, r, htext, hstop, hread⟩ := h.readsRawText he hns hleaf hs
  obtain ⟨p, new, b', l', hends, hlexes, htokens, hover⟩ := hread.ofStart
  obtain ⟨rest, c, hrest, hend, hgrouped, hseparate⟩ := h.exists_rest
  obtain ⟨rest, rfl, hrest'⟩ := hlexes.takes.suffix hrest hend
  have hnext := hlexes.rest_of_rawTextOver h.runs hover hrest' hend
  have htakes := (h.takes.token h.pull).trans hrest
  rw [List.filter_append, htokens.filter_eq] at hgrouped
  obtain ⟨us', hus, hgrouped'⟩ := hgrouped.rawRun hseparate htokens fun t ht => by
    rcases hnext with ⟨rfl, -⟩ | ⟨w, stop, rest', rfl, -⟩
    · cases ht
    · obtain rfl := Option.some.inj ht
      rfl
  refine ⟨pre, r, p, htext, hstop, hends, ⟨_, c, new, htakes, by simp +contextual, htokens⟩, us', hus, ?_⟩
  rcases hnext with ⟨rfl, hnil⟩ | ⟨w, stop, rest', rfl, hsame⟩
  · exact .inl ⟨Nat.le_antisymm hends.le_length (List.drop_eq_nil_iff.1 hnil), hgrouped'.eq_nil_of_nil⟩
  · obtain ⟨endTag, us'', rfl, hat⟩ := Grouped.endTag hgrouped' rfl
    have hmem : .endTag endTag ∈ unitsOf text o := by
      rw [← moments_units, h.moments, List.map_append, List.map_cons, hus]
      simp
    refine .inr ⟨endTag, us'', rfl, ?_, hat⟩
    have htoken := (mem_parse_of_takes htakes Script.parse (List.mem_append_right _
      (List.mem_append_right new (List.mem_cons_self ..)))).2 rfl
    rw [rawName_eq_of_start hmem htoken hat]
    exact hsame

/-- What a start tag adds is open, and has no content yet. -/
theorem TakesStartTag.holds (h : TakesStartTag text o tag ts b t x front behind) {outer : List Nat}
    (hadds : (b.inFront x (b.assembler.process t)).Adds tag e outer (b.take t x))
    (hleaf : e.isLeaf = false) : (b.take t x).Holds b.tree.size outer e none := by
  have hcensus : (startOf text o).Census [] := .ofChars text.toList (locatorOf text o) o.tracing
  have hall := follows_moments text o
  rw [h.moments] at hall
  have hlaid := (hcensus.follows hall.split.1).laid.onUnit (.startTag tag)
  rw [← h.take_eq] at hlaid
  exact ⟨hlaid, by rw [hadds.opened, hleaf]; rfl, hadds.element?, hadds.children⟩

/-- Behind the last unit the element has its text, and its end tag if there is one. -/
theorem TakesStartTag.holds_behindUnits (h : TakesStartTag text o tag ts b t x front behind)
    {outer : List Nat} {e' : Element} {lo p : Nat} {r : List Char}
    (hadds : (b.inFront x (b.assembler.process t)).Adds tag e outer (b.take t x))
    (hleaf : e.isLeaf = false) (hread : ReadsRaw text o e.name lo r p (behind.map Prod.snd))
    (he : (behindUnits text o).tree.element? b.tree.size = some e') :
    (behindUnits text o).HasText b.tree.size e' (rawRun? (locatorOf text o) lo (r.take p)) ∧
      (p = r.length ∨ ∃ x, e'.endTag = some x ∧
        x.span.start = (locatorOf text o).host (lo + byteLength (r.take p))) := by
  obtain ⟨us, hus, hend⟩ := hread.units
  obtain ⟨c, e₁, ms, hholds, hname, hfollows, hms⟩ := (h.holds hadds hleaf).onUnits h.follows hus
  rcases hend with ⟨hp, rfl⟩ | ⟨endTag, us', rfl, hletters, hstart⟩
  · obtain rfl := List.map_eq_nil_iff.1 hms
    obtain ⟨htree, -⟩ := hfollows.of_nil
    rw [htree, hholds.element] at he
    obtain rfl := Option.some.inj he
    exact ⟨hholds.text.follows hfollows, .inl hp⟩
  · have hanswers : sameLetters e₁.name endTag.rawName = true := by
      rw [hname, sameLetters, Bool.beq_comm]
      exact hletters
    obtain ⟨helement, htext⟩ := hholds.onEndTag_follows hfollows hms hanswers
    obtain rfl := Option.some.inj (helement.symm.trans he)
    exact ⟨htext.congr rfl, .inr ⟨_, rfl, hstart⟩⟩

/-! ## The whole template -/

/-- The element `id` has the raw text `r` that starts at `lo` as its content, up to `p`. -/
structure HoldsRawText (t : Template) (loc : Locator) (id : Nat) (e : Element) (lo : Nat)
    (r : List Char) (p : Nat) : Prop where
  /-- The raw text goes up to its own end tag. -/
  ends : RawTextEnds e.name r p
  noChild : p = 0 → e.children = #[]
  /-- It is the only child of the element. -/
  child : p ≠ 0 → ∃ k, e.children = #[k] ∧ t.tree.node? k =
    some ⟨.text (String.ofList (unifyBreaks (r.take p))), some id,
      loc.extent ⟨loc.host lo, loc.host (lo + byteLength (r.take p))⟩⟩
  /-- Nothing in it is anything else than text. -/
  tokens : ∀ x ∈ t.pieces, ∀ i, loc.host lo ≤ i → i < loc.host (lo + byteLength (r.take p)) →
    x.extent.span.start ≤ i → i < x.extent.span.stop → x.kind.isRawText = true
  /-- The end tag behind it is that of the element. -/
  endTag : p < r.length → ∃ x, e.endTag = some x ∧
    x.span.start = loc.host (lo + byteLength (r.take p))

/-- No piece of the text is anything else where the raw text is. -/
theorem ReadsRaw.isRawText {name : String} {lo p i : Nat} {r : List Char} {us : List MarkupUnit}
    (h : ReadsRaw text o name lo r p us) (hlo : (locatorOf text o).host lo ≤ i)
    (hhi : i < (locatorOf text o).host (lo + byteLength (r.take p))) {y : Token}
    (hy : y ∈ (parse text o reader).pieces) (hstart : y.extent.span.start ≤ i)
    (hstop : i < y.extent.span.stop) : y.kind.isRawText = true := by
  obtain ⟨ts, c, new, htakes, hnew, htokens⟩ := h.tokens
  have hpieces : (parse text o reader).pieces = (parse text o).pieces := by
    rw [pieces, pieces, parse_eq, parse_eq]
  rw [hpieces] at hy
  obtain ⟨u, hu, hlo', hhi'⟩ := htokens.covers hlo hhi
  have hraw := htokens.isRawText u hu
  have hcomment : u.kind.isComment = false := by
    cases hk : u.kind <;> rw [hk] at hraw <;> first | rfl | cases hraw
  have hmem := mem_pieces.2 (.inl ((mem_parse_of_takes htakes Script.parse (hnew u hu)).2 hcomment))
  obtain rfl := (outline_piecesApart text o Script.parse).eq_of_overlap hy hmem (by omega) (by omega)
  exact hraw

/-- The element of a template comes from a start tag that the builder took. -/
theorem exists_moment (he : (parse text o reader).tree.element? id = some e) :
    ∃ b tag e₀, (b, .startTag tag) ∈ moments text o ∧ b.tree.size = id ∧
      (b.onUnit (.startTag tag)).tree.bare? id = some e.bare ∧
        (behindUnits text o).tree.element? id = some e₀ ∧ e₀.shell = e.shell := by
  have hshell : (behindUnits text o).tree.shell? id = some e.shell := by
    rw [Tree.shell?, ← (sameNodes_outlineOf text o).element?, ← Tree.shell?,
      ← parse_shell? text o reader, Tree.shell?, he]
    rfl
  obtain ⟨e₀, he₀, hsame⟩ := Option.map_eq_some_iff.1 hshell
  have hbare : (behindUnits text o).tree.bare? id = some e.bare := by
    rw [Tree.bare?, he₀]
    exact congrArg (fun e : Element => some { e with endTag := none, children := #[] }) hsame
  have hstart : (startOf text o).tree.bare? id = none := by
    cases id <;> rfl
  obtain ⟨b, tag, hmem, hsize, hadded⟩ := (follows_moments text o).exists_startTag hstart hbare
  exact ⟨b, tag, e₀, hmem, hsize, hadded, he₀, hsame⟩

/-- The text of an element behind the last unit is the child of the element in the end. -/
theorem exists_child {run : TextRun} (h : (behindUnits text o).HasText id e (some run)) :
    ∃ k, e.children = #[k] ∧ (parse text o reader).tree.node? k =
      some ⟨.text run.value, some id, run.extent⟩ := by
  obtain ⟨k, hchild, hshut, hnode⟩ := h
  refine ⟨k, hchild, parse_text reader ⟨run.value, rfl⟩ ?_⟩
  rw [outlineOf_tree, builderOf_eq_behindUnits, hshut.closeAll, hnode]

/-- What an element holds behind the last unit is what it holds in the end. -/
theorem HoldsRawText.ofBehindUnits {e' : Element} {lo p : Nat} {r : List Char} {us : List MarkupUnit}
    (hread : ReadsRaw text o e.name lo r p us) (hshell : e'.shell = e.shell)
    (htext : (behindUnits text o).HasText id e' (rawRun? (locatorOf text o) lo (r.take p)))
    (hend : p = r.length ∨ ∃ x, e'.endTag = some x ∧
      x.span.start = (locatorOf text o).host (lo + byteLength (r.take p))) :
    (parse text o reader).HoldsRawText (locatorOf text o) id e lo r p := by
  have hchildren : e.shell.children = e'.shell.children := by rw [hshell]
  have hendTag : e'.shell.endTag = e.shell.endTag := by rw [hshell]
  replace htext : (behindUnits text o).HasText id e _ := htext.congr hchildren
  rw [show e'.endTag = e.endTag from hendTag] at hend
  refine ⟨hread.ends, fun hp => ?_, fun hp => ?_, fun y hy i hlo hhi => hread.isRawText hlo hhi hy,
    fun hlt => hend.resolve_left (Nat.ne_of_lt hlt)⟩
  · rw [rawRun?, if_pos (by rw [hp, List.take_zero])] at htext
    exact htext
  · have hne : r.take p ≠ [] := by
      rw [Ne, List.take_eq_nil_iff, not_or]
      refine ⟨hp, ?_⟩
      rintro rfl
      exact hp (Nat.le_zero.1 hread.ends.le_length)
    rw [rawRun?, if_neg hne] at htext
    exact exists_child htext

/-- Raw text ends at its own end tag.  An element with raw text has what is in front of that as its only
child, and the end tag as its end. -/
theorem parse_holdsRawText (he : (parse text o reader).tree.element? id = some e) (hns : e.ns = .html)
    (hname : e.name ∈ ElementClass.rawTextElements) (hself : e.selfClosing = false)
    (ht : t ∈ (parse text o reader).tokens) (hk : t.kind = .tagClose)
    (hstop : t.extent.span.stop = e.startTag.span.stop) :
    ∃ pre r p, text.toList = pre ++ '>' :: r ∧
      e.startTag.span.stop = (locatorOf text o).host (byteLength pre + 1) ∧
        (parse text o reader).HoldsRawText (locatorOf text o) id e (byteLength pre + 1) r p := by
  obtain ⟨c, tag, e₀, hmem, rfl, hbare, he₀, hshell⟩ := exists_moment he
  obtain ⟨e₁, outer, hadds⟩ := c.onUnit_adds tag
  have hthere := hadds.element?
  rw [Tree.bare?, hthere] at hbare
  have hsame : e₁.bare = e.bare := Option.some.inj hbare
  have hnamed := congrArg (fun e : Element => (e.ns, e.name, e.selfClosing, e.startTag)) hsame
  obtain ⟨hns', hname', hself', hstart⟩ : e₁.ns = e.ns ∧ e₁.name = e.name ∧
      e₁.selfClosing = e.selfClosing ∧ e₁.startTag = e.startTag := by
    simpa [Element.bare, Element.shell] using hnamed
  have hraw : tag.rawName.toLower = e.name := by
    rw [← hname', hadds.name, hns', hns]
    rfl
  have hs : ElementClass.contentState? tag.rawName.toLower = some .rawText := by
    rw [hraw, ElementClass.contentState?, if_pos (List.contains_iff_mem.2 hname)]
  have hleaf : e₁.isLeaf = false := by
    have hvoid : ∀ s ∈ ElementClass.rawTextElements, ElementClass.voidElements.contains s = false := by
      decide
    rw [Element.isLeaf, hself', hself, hname', hvoid _ hname, Bool.and_false]
    rfl
  have htokens : (parse text o reader).tokens = (parse text o).tokens := by
    rw [parse_eq, parse_eq]
  obtain ⟨ts, b, x, front, behind, h, rfl⟩ := exists_takesStartTag hmem (htokens ▸ ht) (by rw [hk]; rfl)
    (by rw [hstop, ← hstart, hadds.startTag])
  rw [← h.take_eq] at hadds hthere
  obtain ⟨pre, r, p, htext, hat, hread⟩ := h.readsRaw hthere (hns'.trans hns) hleaf hs
  rw [hraw, ← hname'] at hread
  obtain ⟨hchild, hend⟩ := h.holds_behindUnits hadds hleaf hread he₀
  rw [hname'] at hread
  exact ⟨pre, r, p, htext, by rw [← hstop, hat], .ofBehindUnits hread hshell hchild hend⟩

/-- An end tag of another name is text. -/
theorem parse_holdsRawText_script :
    let text := "<script>a</b></script>"
    ∃ e, (parse text {}).tree.element? 1 = some e ∧ (e.ns = .html ∧
      e.name ∈ ElementClass.rawTextElements ∧ e.selfClosing = false) ∧
        (∃ t ∈ (parse text {}).tokens, t.kind = .tagClose ∧
          t.extent.span.stop = e.startTag.span.stop) ∧
          ∃ pre r p, text.toList = pre ++ '>' :: r ∧
            e.startTag.span.stop = (locatorOf text {}).host (byteLength pre + 1) ∧
              (parse text {}).HoldsRawText (locatorOf text {}) 1 e (byteLength pre + 1) r p := by
  intro text
  have hfacts : ((parse text {}).tree.element? 1).any (fun e => e.ns = .html ∧
      e.name ∈ ElementClass.rawTextElements ∧ e.selfClosing = false ∧ ∃ t ∈ (parse text {}).tokens,
        t.kind = .tagClose ∧ t.extent.span.stop = e.startTag.span.stop) = true := by
    decide +kernel
  obtain ⟨e, he, hfacts⟩ := (Option.any_eq_true _ _).1 hfacts
  obtain ⟨hns, hname, hself, t, ht, hk, hstop⟩ := of_decide_eq_true hfacts
  exact ⟨e, he, ⟨hns, hname, hself⟩, ⟨t, ht, hk, hstop⟩,
    parse_holdsRawText he hns hname hself ht hk hstop⟩

end Template
end TemplateSyntax
