import TemplateSyntax.Proofs.AssemblerMove
import TemplateSyntax.Proofs.BuilderRun
import TemplateSyntax.Proofs.RunMove
import TemplateSyntax.Proofs.TreeMove

/-! # The outline of relocated markup

The builders of two readings take the same units, so that they close the same elements, add the same
nodes, and tell their lexers the same. -/

namespace TemplateSyntax

namespace Move

variable (m : Move)

def pendingMustache (y : PendingMustache) : PendingMustache :=
  ⟨m.node y.node, y.value, m.offset y.start⟩

/-- The place of an attribute in a tree. -/
def place (d : Nat × Nat) : Nat × Nat := (m.node d.1, d.2)

theorem attribute?_element (e : Element) (name : String) :
    (m.element e).attribute? name = (e.attribute? name).map m.plainAttribute := by
  unfold Element.attribute? element
  dsimp only
  rw [Array.findSome?_map, Array.map_findSome?]
  congr 1
  funext x
  cases x with
  | directive d => rfl
  | plain a =>
    show (if a.key.name == name then some (m.plainAttribute a) else none) = _
    simp only [Function.comp]
    split <;> rfl

theorem isHtmlIntegrationPoint_element (e : Element) :
    ElementClass.isHtmlIntegrationPoint (m.element e) = ElementClass.isHtmlIntegrationPoint e := by
  have hencoding : ElementClass.hasHtmlEncoding (m.element e) =
      ElementClass.hasHtmlEncoding e := by
    unfold ElementClass.hasHtmlEncoding
    rw [m.attribute?_element]
    cases e.attribute? "encoding" with
    | none => rfl
    | some a => cases hv : a.value <;> simp [plainAttribute, hv, literal]
  unfold ElementClass.isHtmlIntegrationPoint
  rw [hencoding]
  rfl

theorem namespaceOf_map (parent : Option Element) (name : String) (tag : StartTag) :
    ElementClass.namespaceOf (parent.map m.element) name (m.startTag tag) =
      ElementClass.namespaceOf parent name tag := by
  have hinherited : ElementClass.inheritedNamespace (parent.map m.element) name =
      ElementClass.inheritedNamespace parent name := by
    cases parent with
    | none => rfl
    | some e =>
      simp only [Option.map_some, ElementClass.inheritedNamespace,
        m.isHtmlIntegrationPoint_element]
      rfl
  have hdeclared : ElementClass.declaredNamespace? (m.startTag tag) =
      ElementClass.declaredNamespace? tag := by
    unfold ElementClass.declaredNamespace? startTag
    dsimp only
    have hkey : (fun a : TagAttribute => Text.sameLetters a.key.value "xmlns") ∘ m.tagAttribute =
        fun a => Text.sameLetters a.key.value "xmlns" := rfl
    rw [Array.find?_map, hkey]
    cases tag.attributes.find? fun a => Text.sameLetters a.key.value "xmlns" with
    | none => rfl
    | some a =>
      cases hv : a.value with
      | none => simp [tagAttribute, hv]
      | some v => simp [tagAttribute, hv, token]
  unfold ElementClass.namespaceOf
  rw [hinherited, hdeclared]

theorem plainAttribute_tagAttribute (ns : Namespace) (a : TagAttribute) :
    Builder.plainAttribute ns (m.tagAttribute a) =
      m.plainAttribute (Builder.plainAttribute ns a) := by
  simp only [Builder.plainAttribute, tagAttribute, plainAttribute, Option.map_map]
  rfl

theorem directiveIndices_map (name : String) (attributes : Array PlainAttribute) :
    Builder.directiveIndices name (attributes.map m.plainAttribute) =
      Builder.directiveIndices name attributes := by
  have hpre : (attributes.map m.plainAttribute).any (fun a => a.key.rawName == "v-pre") =
      attributes.any fun a => a.key.rawName == "v-pre" := by
    rw [Array.any_map]
    rfl
  unfold Builder.directiveIndices
  rw [hpre, Array.size_map]
  dsimp only
  congr 1
  funext i
  rw [Array.getElem?_map]
  cases attributes[i]? <;> rfl

end Move

namespace Lexer

variable {r : Relocation} {seen : Prop} {l l' : Lexer}

/-- Both lexers are told the same. -/
theorem Follows.tell (h : Follows r seen l l') {ns ns' : Namespace} (hns : ns' = ns)
    {interpolating interpolating' : Bool} (hi : interpolating' = interpolating)
    (log log' : Array LogEntry) :
    Follows r seen { l with ns, interpolating, log }
      { l' with ns := ns', interpolating := interpolating', log := log' } :=
  { h with
    ns := hns
    interpolating := hi
    known := fun x hx => by cases x <;> exact h.known _ hx }

/-- Content whose end tag is known is read in the same way. -/
theorem Follows.enter (h : Follows r seen l l') (hseen : seen) {s : LexState}
    (hs : IsTextState s) : Follows r seen (l.enter s) (l'.enter s) := by
  have hneeds : s.needs = [.startName] := by rcases hs with rfl | rfl <;> rfl
  have hmoved : ({ l with log := (l.traceTo s).log, state := s } : Lexer).Moved r seen l.inUse
      { l' with log := (l'.traceTo s).log, state := s } :=
    { h with state := rfl, known := fun x hx => by cases x <;> exact h.known _ hx }
  rw [enter_eq, enter_eq]
  refine hmoved.reknow (fun x hx => ?_) fun _ => .inl hseen
  cases x with
  | startName => trivial
  | here =>
    refine hmoved.known .here ?_
    unfold inUse at hx ⊢
    cases ha : l.again with
    | true => rw [if_pos rfl]; exact List.mem_cons_self ..
    | false => simp [ha, hneeds] at hx
  | _ => simp [inUse, hneeds] at hx; split at hx <;> simp at hx

end Lexer

/-- The builders of two readings, where `before` is the builder that the second one had before. -/
structure Builder.Moved (r : Relocation) (seen : Prop) (b before b' : Builder) : Prop where
  source : b.locator = r.source
  target : b'.locator = r.locator
  lexer : b.lexer.Follows r seen b'.lexer
  assembler : b.assembler.Moved r before.assembler b'.assembler
  tree : b.tree.Moved r before.tree b'.tree
  opened : b'.opened = b.opened.map r.node
  verbatim : b'.verbatim = b.verbatim.map r.node
  directives : b'.directives = before.directives ++ b.directives.map r.place
  mustaches : b'.mustaches = before.mustaches ++ b.mustaches.map r.pendingMustache
  diagnostics : b'.diagnostics = before.diagnostics ++ b.diagnostics.map r.diagnostic

namespace Builder.Moved

variable {r : Relocation} {seen : Prop} {b before b' : Builder}

theorem current (h : b.Moved r seen before b') : b'.current = r.node b.current := by
  unfold Builder.current
  rw [h.opened]
  cases b.opened with
  | nil => exact r.node_root.symm
  | cons id outer => rfl

theorem currentElement? (h : b.Moved r seen before b') :
    b'.currentElement? = b.currentElement?.map r.element := by
  unfold Builder.currentElement?
  rw [h.opened]
  cases b.opened with
  | nil => rfl
  | cons id outer => exact h.tree.element? id

theorem currentNamespace (h : b.Moved r seen before b') :
    b'.currentNamespace = b.currentNamespace := by
  unfold Builder.currentNamespace
  rw [h.currentElement?, Option.map_map]
  rfl

theorem check (h : b.Moved r seen before b') (ok ok' : Bool) (x : Breach) :
    (b.check ok x).Moved r seen before (b'.check ok' x) :=
  { h with }

theorem report (h : b.Moved r seen before b') (cause : Cause) (offset : Nat) :
    (b.report cause offset).Moved r seen before (b'.report cause (r.offset offset)) :=
  { h with
    diagnostics := by
      simp only [Builder.report, h.diagnostics, h.source, h.target, Array.map_push,
        Array.append_push, r.diagnostic_diagnose] }

/-- A change of the lexer alone. -/
theorem withLexer (h : b.Moved r seen before b') {l l' : Lexer} (hl : l.Follows r seen l') :
    ({ b with lexer := l } : Builder).Moved r seen before { b' with lexer := l' } :=
  { h with lexer := hl }

theorem withTree (h : b.Moved r seen before b') {t t' : Tree} (ht : t.Moved r before.tree t') :
    ({ b with tree := t } : Builder).Moved r seen before { b' with tree := t' } :=
  { h with tree := ht }

theorem withOpened (h : b.Moved r seen before b') (ids : List Nat) :
    ({ b with opened := ids } : Builder).Moved r seen before
      { b' with opened := ids.map r.node } :=
  { h with opened := rfl }

/-- What was logged does not count. -/
theorem relogged (h : b.Moved r seen before b') (log log' : Array LogEntry) :
    ({ b with lexer := { b.lexer with log } } : Builder).Moved r seen before
      { b' with lexer := { b'.lexer with log := log' } } :=
  h.withLexer (h.lexer.tell h.lexer.ns h.lexer.interpolating log log')

theorem syncNamespace (h : b.Moved r seen before b') :
    b.syncNamespace.Moved r seen before b'.syncNamespace :=
  h.withLexer (h.lexer.tell h.currentNamespace h.lexer.interpolating _ _)

/-- A node without children is added. -/
theorem addNode (h : b.Moved r seen before b') (content : NodeContent) (extent : Extent)
    (hnil : (Node.mk content (some b.current) extent).children = #[]) :
    (b.addNode content extent).Moved r seen before
      (b'.addNode (r.content content) (r.extent extent)) := by
  unfold Builder.addNode
  rw [h.current]
  exact (h.check _ _ _).withTree (h.tree.append b.current content extent hnil)

/-! ## Elements are closed -/

theorem lastExtent (h : b.Moved r seen before b') {id : Nat} {e : Element}
    (he : b.tree.element? id = some e) :
    b'.lastExtent (r.element e) = r.extent (b.lastExtent e) := by
  obtain ⟨n, hn, hne⟩ := Option.bind_eq_some_iff.1 he
  unfold Builder.lastExtent
  have hend : (r.element e).endTag = e.endTag.map r.extent := rfl
  rw [hend]
  cases e.endTag with
  | some tag => rfl
  | none =>
    have hback : (r.element e).children.back? = e.children.back?.map r.node := Array.back?_map
    rw [Option.map_none, hback]
    cases hc : e.children.back? with
    | none => rfl
    | some c =>
      have hchild : c ≠ Tree.root := by
        refine h.tree.child id c ?_
        rw [Tree.children_eq hn]
        obtain ⟨x, parent, extent⟩ := n
        cases x <;> simp only [Node.element?, reduceCtorEq, Option.some.injEq] at hne
        subst hne
        exact Array.mem_of_back? hc
      simp only [Option.map_some, Option.bind_some]
      rw [h.tree.node c hchild]
      cases b.tree.node? c <;> rfl

theorem closeElement (h : b.Moved r seen before b') (id : Nat) :
    (b.closeElement id).Moved r seen before (b'.closeElement (r.node id)) := by
  have hverbatim : (b'.verbatim == some (r.node id)) = (b.verbatim == some id) := by
    rw [h.verbatim]
    cases b.verbatim with
    | none => rfl
    | some j =>
      rw [Option.map_some, Bool.eq_iff_iff]
      simp [r.node_inj]
  have hwhole := h.check (b.isWhole id) (b'.isWhole (r.node id)) .noNode
  have hfreed : ∀ {t t' : Tree}, t.Moved r before.tree t' →
      (if b.verbatim == some id then
        { b.check (b.isWhole id) .noNode with
          tree := t, verbatim := none, lexer := { b.lexer with interpolating := true } }
      else { b.check (b.isWhole id) .noNode with tree := t }).Moved r seen before
      (if b'.verbatim == some (r.node id) then
        { b'.check (b'.isWhole (r.node id)) .noNode with
          tree := t', verbatim := none, lexer := { b'.lexer with interpolating := true } }
      else { b'.check (b'.isWhole (r.node id)) .noNode with tree := t' }) := by
    intro t t' ht
    have hclosed := hwhole.withTree ht
    rw [hverbatim]
    split
    · have hlexer := hclosed.lexer.tell hclosed.lexer.ns (rfl : true = true) b.lexer.log b'.lexer.log
      exact { hclosed.withLexer hlexer with verbatim := rfl }
    · exact hclosed
  unfold Builder.closeElement
  rw [h.tree.element?]
  cases he : b.tree.element? id with
  | none => exact hfreed h.tree
  | some e =>
    refine hfreed (h.tree.modify (h.tree.ne_root_of_element? he) (fun n _ => ?_) fun n => rfl)
    rw [h.lastExtent he]
    rfl

theorem closeImplied (h : b.Moved r seen before b') (name : String) :
    (b.closeImplied name).Moved r seen before (b'.closeImplied name) := by
  unfold Builder.closeImplied
  rw [h.opened, h.currentElement?]
  cases b.opened with
  | nil => exact h
  | cons id outer =>
    cases b.currentElement? with
    | none => exact h
    | some e =>
      have hns : (r.element e).ns = e.ns := rfl
      have hname : (r.element e).name = e.name := rfl
      simp only [List.map_cons, Option.map_some, hns, hname]
      split
      · exact ((h.withOpened outer).closeElement id).syncNamespace
      · exact h

theorem closeInnermost (h : b.Moved r seen before b') (count : Nat) :
    (b.closeInnermost count).Moved r seen before (b'.closeInnermost count) := by
  induction count generalizing b b' with
  | zero => exact h
  | succ count ih =>
    rw [Builder.closeInnermost, Builder.closeInnermost, h.opened]
    cases b.opened with
    | nil => exact h
    | cons id outer => exact ih ((h.withOpened outer).closeElement id)

theorem closeAll (h : b.Moved r seen before b') :
    b.closeAll.Moved r seen before b'.closeAll := by
  unfold Builder.closeAll
  rw [h.opened, List.length_map]
  exact h.closeInnermost _

/-! ## Units -/

theorem checkNamespaces (h : b.Moved r seen before b') (ns : Namespace)
    (attributes : Array PlainAttribute) :
    (b.checkNamespaces ns attributes).Moved r seen before
      (b'.checkNamespaces ns (attributes.map r.plainAttribute)) := by
  unfold Builder.checkNamespaces
  rw [← Array.foldl_toList, ← Array.foldl_toList, Array.toList_map, List.foldl_map]
  induction attributes.toList generalizing b b' with
  | nil => exact h
  | cons a as ih =>
    refine ih ?_
    have hname : (r.plainAttribute a).key.name = a.key.name := rfl
    have hvalue : (r.plainAttribute a).value.map Literal.value = a.value.map Literal.value := by
      simp only [Move.plainAttribute, Option.map_map]
      rfl
    dsimp only
    rw [hname, hvalue]
    split
    · exact h
    · split
      · exact h
      · exact h.report _ a.key.extent.span.start

theorem scheduleDirectives (h : b.Moved r seen before b') (id : Nat) (name : String)
    (attributes : Array PlainAttribute) :
    (b.scheduleDirectives id name attributes).Moved r seen before
      (b'.scheduleDirectives (r.node id) name (attributes.map r.plainAttribute)) := by
  have hpre : (attributes.map r.plainAttribute).any (fun a => a.key.rawName == "v-pre") =
      attributes.any fun a => a.key.rawName == "v-pre" := by
    rw [Array.any_map]
    rfl
  have hverbatim : b'.verbatim.isSome = b.verbatim.isSome := by
    rw [h.verbatim, Option.isSome_map]
  unfold Builder.scheduleDirectives
  rw [hverbatim, r.directiveIndices_map, hpre]
  split
  · exact h
  · have hfound : ({ b with
          directives := b.directives ++ (directiveIndices name attributes).map fun i => (id, i) } :
          Builder).Moved r seen before
        { b' with
          directives := b'.directives ++
            (directiveIndices name attributes).map fun i => (r.node id, i) } :=
      { h with
        directives := by
          apply Array.toList_inj.1
          simp [h.directives, Move.place] }
    dsimp only
    split
    · have hlogged := hfound.relogged (b.logged (.interpolationOff name)).lexer.log
        (b'.logged (.interpolationOff name)).lexer.log
      have hlexer := hlogged.lexer.tell hlogged.lexer.ns (rfl : false = false)
        (b.logged (.interpolationOff name)).lexer.log
        (b'.logged (.interpolationOff name)).lexer.log
      exact { hlogged.withLexer hlexer with verbatim := rfl }
    · exact hfound

/-- How the content of an element that was opened is read. -/
theorem openContent (h : b.Moved r seen before b') (hseen : seen) (ns : Namespace)
    (lower : String) :
    ({ b with lexer :=
      if ns == .html then
        match ElementClass.contentState? lower with
        | some s => { b.lexer with ns }.enter s
        | none => { b.lexer with ns }
      else { b.lexer with ns } } : Builder).Moved r seen before
    { b' with lexer :=
      if ns == .html then
        match ElementClass.contentState? lower with
        | some s => { b'.lexer with ns }.enter s
        | none => { b'.lexer with ns }
      else { b'.lexer with ns } } := by
  have hlexer := h.lexer.tell (rfl : ns = ns) h.lexer.interpolating b.lexer.log b'.lexer.log
  split
  · split
    · next s hs => exact h.withLexer (hlexer.enter hseen (ElementClass.isTextState_of_contentState? hs))
    · exact h.withLexer hlexer
  · exact h.withLexer hlexer

theorem onStartTag (h : b.Moved r seen before b') (hseen : seen) (tag : StartTag) :
    (b.onStartTag tag).Moved r seen before (b'.onStartTag (r.startTag tag)) := by
  have hname : (r.startTag tag).rawName = tag.rawName := rfl
  have hself : (r.startTag tag).selfClosing = tag.selfClosing := rfl
  have himplied := h.closeImplied tag.rawName.toLower
  unfold Builder.onStartTag
  dsimp only
  rw [hname, hself, himplied.currentElement?, r.namespaceOf_map]
  generalize b.closeImplied tag.rawName.toLower = b₀ at himplied
  generalize b'.closeImplied tag.rawName.toLower = b₀' at himplied
  generalize ElementClass.namespaceOf b₀.currentElement? tag.rawName.toLower tag = ns
  have hattributes : (r.startTag tag).attributes.map (plainAttribute ns) =
      (tag.attributes.map (plainAttribute ns)).map r.plainAttribute := by
    simp only [Move.startTag, Array.map_map]
    congr 1
    funext a
    exact r.plainAttribute_tagAttribute ns a
  rw [hattributes]
  generalize tag.attributes.map (plainAttribute ns) = attributes
  have hchecked := himplied.checkNamespaces ns attributes
  generalize b₀.checkNamespaces ns attributes = b₁ at hchecked
  generalize b₀'.checkNamespaces ns (attributes.map r.plainAttribute) = b₁' at hchecked
  have hcontent : r.content (.element
      { name := ns.elementName tag.rawName, rawName := tag.rawName, ns
        selfClosing := tag.selfClosing, attributes := attributes.map .plain
        startTag := tag.extent, endTag := none, children := #[], bindings := #[] }) =
      .element
      { name := ns.elementName tag.rawName, rawName := tag.rawName, ns
        selfClosing := tag.selfClosing, attributes := (attributes.map r.plainAttribute).map .plain
        startTag := (r.startTag tag).extent, endTag := none, children := #[], bindings := #[] } := by
    simp only [Move.content, Move.element, Array.map_map, Array.map_empty, Option.map_none]
    rfl
  have hadded := hchecked.addNode (.element
    { name := ns.elementName tag.rawName, rawName := tag.rawName, ns
      selfClosing := tag.selfClosing, attributes := attributes.map .plain
      startTag := tag.extent, endTag := none, children := #[], bindings := #[] }) tag.extent rfl
  have hid : b₁'.tree.size = r.node b₁.tree.size := hchecked.tree.node_size.symm
  have hextent : (r.startTag tag).extent = r.extent tag.extent := rfl
  rw [hextent] at hcontent ⊢
  rw [hcontent] at hadded
  rw [hid]
  have hscheduled := hadded.scheduleDirectives b₁.tree.size (ns.elementName tag.rawName) attributes
  generalize (b₁.addNode _ _).scheduleDirectives _ _ _ = b₂ at hscheduled
  generalize (b₁'.addNode _ _).scheduleDirectives _ _ _ = b₂' at hscheduled
  split
  · exact hscheduled.closeElement b₁.tree.size
  · exact { hscheduled.openContent hseen ns tag.rawName.toLower with
      opened := by
        show r.node b₁.tree.size :: b₂'.opened = (b₁.tree.size :: b₂.opened).map r.node
        rw [hscheduled.opened, List.map_cons] }

theorem closes (h : b.Moved r seen before b') (name : String) :
    b'.closes name ∘ r.node = b.closes name := by
  funext id
  simp only [Function.comp, Builder.closes, h.tree.element?]
  cases b.tree.element? id <;> rfl

theorem onEndTag (h : b.Moved r seen before b') (tag : EndTag) :
    (b.onEndTag tag).Moved r seen before (b'.onEndTag (r.endTag tag)) := by
  have hname : (r.endTag tag).rawName = tag.rawName := rfl
  have hdepth : b'.opened.findIdx? (b'.closes tag.rawName) =
      b.opened.findIdx? (b.closes tag.rawName) := by
    rw [h.opened, List.findIdx?_map, h.closes]
  have htarget : b'.opened.find? (b'.closes tag.rawName) =
      (b.opened.find? (b.closes tag.rawName)).map r.node := by
    rw [h.opened, List.find?_map, h.closes]
  unfold Builder.onEndTag
  rw [hname, hdepth, htarget]
  cases b.opened.findIdx? (b.closes tag.rawName) with
  | none => exact h.report (.invalidEndTag tag.rawName.toLower) tag.extent.span.start
  | some depth =>
    cases ht : b.opened.find? (b.closes tag.rawName) with
    | none => exact h.report (.invalidEndTag tag.rawName.toLower) tag.extent.span.start
    | some target =>
      have hcloses := List.find?_some ht
      have htree : (b.tree.modifyElement target fun e =>
          { e with endTag := some tag.extent }).Moved r before.tree
          (b'.tree.modifyElement (r.node target) fun e =>
            { e with endTag := some (r.extent tag.extent) }) := by
        cases he : b.tree.element? target with
        | none => simp [Builder.closes, he] at hcloses
        | some e =>
          exact h.tree.modifyElement (h.tree.ne_root_of_element? he) (fun e => rfl) fun e => rfl
      exact ((h.withTree htree).closeInnermost (depth + 1)).syncNamespace

theorem onText (h : b.Moved r seen before b') (run : TextRun) :
    (b.onText run).Moved r seen before (b'.onText (r.textRun run)) :=
  h.addNode (.text run.value) run.extent rfl

theorem onMustache (h : b.Moved r seen before b') (m : Mustache) :
    (b.onMustache m).Moved r seen before (b'.onMustache (r.mustache m)) := by
  have hadded := h.addNode (.mustache ⟨none, #[], m.extent⟩) m.extent rfl
  have hcontent : r.content (.mustache ⟨none, #[], m.extent⟩) =
      .mustache ⟨none, #[], r.extent m.extent⟩ := by
    simp only [Move.content, Move.container, Option.map_none, Array.map_empty]
  have hpending : (⟨b'.tree.size, (r.mustache m).value, (r.mustache m).opening.extent.span.stop⟩ :
      PendingMustache) = r.pendingMustache ⟨b.tree.size, m.value, m.opening.extent.span.stop⟩ := by
    rw [← h.tree.node_size]
    rfl
  rw [hcontent] at hadded
  refine { hadded with mustaches := ?_ }
  show b'.mustaches.push _ = before.mustaches ++ (b.mustaches.push _).map r.pendingMustache
  rw [Array.map_push, Array.append_push, ← hpending, h.mustaches]

/-- A unit that is moved is taken as the unit itself. -/
theorem onUnit (h : b.Moved r seen before b') {u : MarkupUnit}
    (hseen : ∀ t, u = .startTag t → seen) :
    (b.onUnit u).Moved r seen before (b'.onUnit (r.markupUnit u)) := by
  have hlogged : (if b.lexer.tracing then b.logged (.pulled b.opened.length u.extent.span)
      else b).Moved r seen before
    (if b'.lexer.tracing then
      b'.logged (.pulled b'.opened.length (r.markupUnit u).extent.span) else b') := by
    split
    · split
      · exact h.relogged _ _
      · exact h.relogged _ b'.lexer.log
    · split
      · exact h.relogged b.lexer.log _
      · exact h
  unfold Builder.onUnit
  dsimp only
  cases u with
  | startTag t => exact hlogged.onStartTag (hseen t rfl) t
  | endTag t => exact hlogged.onEndTag t
  | text t => exact hlogged.onText t
  | mustache m => exact hlogged.onMustache m

theorem onUnits (h : b.Moved r seen before b') {us : List MarkupUnit}
    (hseen : ∀ t, .startTag t ∈ us → seen) :
    (us.foldl Builder.onUnit b).Moved r seen before
      ((us.map r.markupUnit).foldl Builder.onUnit b') := by
  induction us generalizing b b' with
  | nil => exact h
  | cons u us ih =>
    have hunit := h.onUnit fun t ht => hseen t (ht ▸ List.mem_cons_self ..)
    exact ih hunit fun t ht => hseen t (List.mem_cons_of_mem u ht)

/-- The units that are ready are taken. -/
theorem drain (h : b.Moved r seen before b')
    (hseen : ∀ t, .startTag t ∈ b.assembler.output → seen) :
    b.drain.Moved r seen before b'.drain := by
  have hassembler : ({ b with assembler := { b.assembler with output := #[] } } :
      Builder).Moved r seen before
        { b' with assembler := { b'.assembler with output := #[] } } :=
    { h with assembler := { h.assembler with output := Array.map_empty.symm } }
  unfold Builder.drain
  simp only [Assembler.takeOutput, ← Array.foldl_toList, h.assembler.output, Array.toList_map]
  exact hassembler.onUnits fun t ht => hseen t (Array.mem_toList_iff.1 ht)

end Builder.Moved

end TemplateSyntax
