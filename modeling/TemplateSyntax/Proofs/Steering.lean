import TemplateSyntax.Proofs.Takes

/-! # What the tree builder tells the lexer

Between two tokens the lexer knows the namespace of the innermost open element, and whether an open
element turned interpolation off.  A unit that leaves no element open leaves the lexer in the state
that it is in. -/

namespace TemplateSyntax

/-- The namespace of an element. -/
def Tree.ns? (t : Tree) (id : Nat) : Option Namespace := (t.element? id).map Element.ns

/-- A new child is none of the namespace of its parent. -/
theorem Tree.ns?_append {t : Tree} {p id : Nat} {content : NodeContent} {extent : Extent}
    (h : id ≠ t.size) : (t.append p content extent).ns? id = t.ns? id := by
  have hjoin : ∀ t : Tree, t.ns? id = ((t.node? id).map fun n => n.element?.map Element.ns).join := by
    intro t
    rw [ns?, element?]
    cases t.node? id <;> rfl
  rw [hjoin, hjoin, node?_append h, map_node?_modify]
  intro n _
  obtain ⟨c, parent, extent⟩ := n
  cases c <;> rfl

namespace Builder

variable {b b' : Builder} {id : Nat} {inside : List Nat}

/-- Interpolation is off if one of the elements `inside` turned it off, and on otherwise. -/
structure Off (b : Builder) (inside : List Nat) : Prop where
  mem : ∀ id, b.verbatim = some id → id ∈ inside
  told : b.lexer.interpolating = b.verbatim.isNone

/-- What the lexer was told is right for the elements that are open. -/
structure Steers (b : Builder) : Prop where
  there : ∀ id ∈ b.opened, id < b.tree.size
  ns : b.lexer.ns = b.currentNamespace
  off : b.Off b.opened

/-- An element that is closed does not count any more. -/
theorem Off.closeElement (h : b.Off (id :: inside)) : (b.closeElement id).Off inside := by
  unfold Builder.closeElement
  dsimp only
  split
  · exact ⟨nofun, rfl⟩
  · next hne =>
    refine ⟨fun v hv => ?_, h.told⟩
    have hv' : b.verbatim = some v := hv
    rcases List.mem_cons.1 (h.mem v hv') with rfl | hmem
    · exact absurd (beq_iff_eq.2 hv') hne
    · exact hmem

theorem size_closeElement (b : Builder) (id : Nat) :
    (b.closeElement id).tree.size = b.tree.size := by
  unfold closeElement
  dsimp only
  cases b.tree.element? id with
  | none => split <;> rfl
  | some e => split <;> exact Tree.size_modify _ _ _

/-- What holds while elements are closed: only the namespace is still to be told. -/
theorem closeInnermost_steers (hthere : ∀ id ∈ b.opened, id < b.tree.size) (hoff : b.Off b.opened)
    (count : Nat) : (∀ id ∈ (b.closeInnermost count).opened, id < (b.closeInnermost count).tree.size) ∧
      (b.closeInnermost count).Off (b.closeInnermost count).opened := by
  induction count generalizing b with
  | zero => exact ⟨hthere, hoff⟩
  | succ count ih =>
    cases ho : b.opened with
    | nil =>
      have hstay : b.closeInnermost (count + 1) = b := closeInnermost_nil ho _
      rw [hstay]
      exact ⟨hthere, hoff⟩
    | cons id outer =>
      rw [closeInnermost_cons ho]
      rw [ho] at hthere hoff
      have hclosed : ({ b with opened := outer }.closeElement id).Off outer :=
        Off.closeElement (b := { b with opened := outer }) ⟨hoff.mem, hoff.told⟩
      have hopened := closeElement_opened { b with opened := outer } id
      refine ih ?_ ?_
      · rw [hopened, size_closeElement]
        exact fun j hj => hthere j (List.mem_cons_of_mem id hj)
      · rw [hopened]
        exact hclosed

theorem Steers.logged (h : b.Steers) (entry : LogEntry) : (b.logged entry).Steers :=
  ⟨h.there, h.ns, h.off.mem, h.off.told⟩

theorem Steers.closeImplied (h : b.Steers) (name : String) : (b.closeImplied name).Steers := by
  unfold Builder.closeImplied
  split
  · next id outer e ho he =>
    split
    · have hone := closeInnermost_steers h.there h.off 1
      rw [closeInnermost_cons ho] at hone
      exact ⟨hone.1, rfl, hone.2.mem, hone.2.told⟩
    · exact h
  · exact h

theorem Steers.checkNamespaces (h : b.Steers) (ns : Namespace)
    (attributes : Array PlainAttribute) : (b.checkNamespaces ns attributes).Steers := by
  unfold Builder.checkNamespaces
  refine Array.foldl_induction (fun _ (b' : Builder) => b'.Steers) h fun i b' ih => ?_
  split
  · exact ih
  · split
    · exact ih
    · exact ⟨ih.there, ih.ns, ih.off.mem, ih.off.told⟩

theorem currentNamespace_eq (b : Builder) :
    b.currentNamespace = (b.opened.head?.bind b.tree.ns?).getD .html := by
  unfold currentNamespace currentElement? Tree.ns?
  cases b.opened.head? <;> rfl

/-- A new node is not open, and changes the namespace of none that is. -/
theorem Steers.addNode (h : b.Steers) (content : NodeContent) (extent : Extent) :
    (b.addNode content extent).Steers where
  there id hid := by
    show id < (b.tree.append _ _ _).size
    rw [Tree.size_append]
    exact Nat.lt_succ_of_lt (h.there id hid)
  ns := by
    refine h.ns.trans ?_
    rw [currentNamespace_eq, currentNamespace_eq]
    show _ = (b.opened.head?.bind (b.tree.append b.current content extent).ns?).getD .html
    cases ho : b.opened.head? with
    | none => rfl
    | some id =>
      rw [Option.bind_some, Option.bind_some,
        Tree.ns?_append (Nat.ne_of_lt (h.there id (List.mem_of_head? ho)))]
  off := ⟨h.off.mem, h.off.told⟩

/-- A new element may turn interpolation off, before it is open. -/
theorem Off.scheduleDirectives (h : b.Off inside) (id : Nat) (name : String)
    (attributes : Array PlainAttribute) :
    (b.scheduleDirectives id name attributes).Off (id :: inside) := by
  have hmore : b.Off (id :: inside) := ⟨fun v hv => List.mem_cons_of_mem id (h.mem v hv), h.told⟩
  unfold Builder.scheduleDirectives
  split
  · exact hmore
  · dsimp only
    split
    · exact ⟨fun v hv => Option.some.inj hv ▸ List.mem_cons_self .., rfl⟩
    · exact ⟨hmore.mem, hmore.told⟩

theorem scheduleDirectives_stays (b : Builder) (id : Nat) (name : String)
    (attributes : Array PlainAttribute) :
    (b.scheduleDirectives id name attributes).opened = b.opened ∧
      (b.scheduleDirectives id name attributes).tree = b.tree ∧
      (b.scheduleDirectives id name attributes).lexer.ns = b.lexer.ns := by
  unfold scheduleDirectives
  split
  · exact ⟨rfl, rfl, rfl⟩
  · dsimp only
    split <;> exact ⟨rfl, rfl, rfl⟩

/-- An element that is closed at once changes nothing for the others. -/
theorem Steers.closeAtOnce (h : b.Steers) {id : Nat} {name : String}
    {attributes : Array PlainAttribute} :
    ((b.scheduleDirectives id name attributes).closeElement id).Steers := by
  obtain ⟨hopened, htree, hns⟩ := scheduleDirectives_stays b id name attributes
  have hoff := (h.off.scheduleDirectives id name attributes).closeElement
  generalize b.scheduleDirectives id name attributes = b₁ at hopened htree hns hoff
  have hopened₁ := (closeElement_opened b₁ id).trans hopened
  refine ⟨?_, ?_, hopened₁ ▸ hoff⟩
  · rw [hopened₁, size_closeElement, htree]
    exact h.there
  · have hlexer : (b₁.closeElement id).lexer.ns = b₁.lexer.ns := by
      unfold Builder.closeElement
      dsimp only
      split <;> rfl
    rw [hlexer, hns, h.ns, currentNamespace_eq, currentNamespace_eq, hopened₁]
    unfold Tree.ns?
    simp only [closeElement_element?, htree]

/-- An element that is opened: the lexer is told its namespace. -/
theorem Steers.open (h : b.Steers) {id : Nat} {name : String} {attributes : Array PlainAttribute}
    {ns : Namespace} {x : Lexer} (hid : id < b.tree.size) (hns : b.tree.ns? id = some ns)
    (hx : x.ns = ns ∧
      x.interpolating = (b.scheduleDirectives id name attributes).lexer.interpolating) :
    ({ b.scheduleDirectives id name attributes with
      opened := id :: (b.scheduleDirectives id name attributes).opened, lexer := x } :
        Builder).Steers := by
  obtain ⟨hopened, htree, -⟩ := scheduleDirectives_stays b id name attributes
  have hoff := h.off.scheduleDirectives id name attributes
  generalize b.scheduleDirectives id name attributes = b₁ at hopened htree hx hoff
  refine ⟨?_, ?_, ?_, hx.2.trans hoff.told⟩
  · show ∀ j ∈ id :: b₁.opened, j < b₁.tree.size
    rw [hopened, htree]
    exact List.forall_mem_cons.2 ⟨hid, h.there⟩
  · rw [currentNamespace_eq]
    show x.ns = (b₁.tree.ns? id).getD .html
    rw [htree, hns, hx.1]
    rfl
  · show ∀ v, b₁.verbatim = some v → v ∈ id :: b₁.opened
    rw [hopened]
    exact hoff.mem

theorem Steers.onStartTag (h : b.Steers) (tag : StartTag) : (b.onStartTag tag).Steers := by
  unfold Builder.onStartTag
  dsimp only
  have himplied := h.closeImplied tag.rawName.toLower
  generalize b.closeImplied tag.rawName.toLower = b₀ at himplied
  generalize ElementClass.namespaceOf b₀.currentElement? tag.rawName.toLower tag = ns
  have hchecked := himplied.checkNamespaces ns (tag.attributes.map (plainAttribute ns))
  generalize b₀.checkNamespaces ns (tag.attributes.map (plainAttribute ns)) = b₁ at hchecked
  generalize hcontent : NodeContent.element _ = content
  have hadded := hchecked.addNode content tag.extent
  have hns : (b₁.addNode content tag.extent).tree.ns? b₁.tree.size = some ns := by
    have hnode := Tree.node?_append_self b₁.tree b₁.current content tag.extent
    show (b₁.tree.append _ _ _).ns? _ = _
    rw [Tree.ns?, Tree.element?_eq hnode, ← hcontent]
    rfl
  have hsize : b₁.tree.size < (b₁.addNode content tag.extent).tree.size := by
    show b₁.tree.size < (b₁.tree.append _ _ _).size
    rw [Tree.size_append]
    exact Nat.lt_succ_self _
  split
  · exact hadded.closeAtOnce
  · refine hadded.open hsize hns ?_
    have henter : ∀ (x : Lexer) (s : LexState), (x.enter s).ns = x.ns ∧
        (x.enter s).interpolating = x.interpolating := by
      intro x s
      rw [Lexer.enter_eq]
      exact ⟨rfl, rfl⟩
    split
    · split
      · exact henter _ _
      · exact ⟨rfl, rfl⟩
    · exact ⟨rfl, rfl⟩

theorem Steers.onEndTag (h : b.Steers) (tag : EndTag) : (b.onEndTag tag).Steers := by
  unfold Builder.onEndTag
  split
  · next depth target _ _ =>
    have hthere : ∀ id ∈ b.opened, id < (b.tree.modifyElement target fun e =>
        { e with endTag := some tag.extent }).size := by
      intro id hid
      rw [Tree.modifyElement, Tree.size_modify]
      exact h.there id hid
    have hclosed := closeInnermost_steers (b := { b with
      tree := b.tree.modifyElement target fun e => { e with endTag := some tag.extent } }) hthere
      ⟨h.off.mem, h.off.told⟩ (depth + 1)
    exact ⟨hclosed.1, rfl, hclosed.2.mem, hclosed.2.told⟩
  · exact ⟨h.there, h.ns, h.off.mem, h.off.told⟩

/-- Whatever unit is taken, the lexer is told what counts behind it. -/
theorem Steers.onUnit (h : b.Steers) (u : MarkupUnit) : (b.onUnit u).Steers := by
  have hlogged : (if b.lexer.tracing then b.logged (.pulled b.opened.length u.extent.span)
      else b).Steers := by
    split
    · exact h.logged _
    · exact h
  unfold Builder.onUnit
  dsimp only
  generalize (if b.lexer.tracing then b.logged (.pulled b.opened.length u.extent.span) else b) =
    b₀ at hlogged
  cases u with
  | startTag tag => exact hlogged.onStartTag tag
  | endTag tag => exact hlogged.onEndTag tag
  | text run => exact hlogged.addNode (.text run.value) run.extent
  | mustache m =>
    have hadded := hlogged.addNode (.mustache ⟨none, #[], m.extent⟩) m.extent
    exact ⟨hadded.there, hadded.ns, hadded.off.mem, hadded.off.told⟩

theorem Steers.drain (h : b.Steers) : b.drain.Steers := by
  simp only [Builder.drain, Assembler.takeOutput]
  generalize hstart : ({ b with assembler := _ } : Builder) = start
  have hsteers : start.Steers := hstart ▸ ⟨h.there, h.ns, h.off.mem, h.off.told⟩
  exact Array.foldl_induction (fun _ (b' : Builder) => b'.Steers) hsteers fun i b' ih => ih.onUnit _

/-- A pull leaves the lexer with what it was told. -/
theorem Steers.take (h : b.Steers) {t : Token} {x : Lexer} (hpull : b.lexer.pull = (some t, x)) :
    (b.take t x).Steers := by
  have htold := b.lexer.pull_told
  rw [hpull] at htold
  have hns : x.ns = b.lexer.ns := congrArg (fun y => y.2.1) htold
  have hinterpolating : x.interpolating = b.lexer.interpolating := congrArg (fun y => y.2.2) htold
  exact Steers.drain ⟨h.there, hns.trans h.ns, h.off.mem, hinterpolating.trans h.off.told⟩

theorem Takes.steers {ts : List Token} (h : Takes b ts b') (hb : b.Steers) : b'.Steers := by
  induction h with
  | nothing => exact hb
  | token h hpull ih => exact ih.take hpull

theorem steers_ofChars (cs : List Char) (locator : Locator) (tracing : Bool) :
    (ofChars cs locator tracing).Steers :=
  ⟨by simp [ofChars], rfl, by simp [ofChars], rfl⟩

/-- Where no element is open, nothing that was read counts for what is read next. -/
theorem Steers.of_opened_nil (h : b.Steers) (ho : b.opened = []) :
    b.lexer.ns = .html ∧ b.verbatim = none ∧ b.lexer.interpolating = true := by
  have hverbatim : b.verbatim = none := by
    cases hv : b.verbatim with
    | none => rfl
    | some id =>
      have hmem := h.off.mem id hv
      rw [ho] at hmem
      exact absurd hmem List.not_mem_nil
  refine ⟨?_, hverbatim, ?_⟩
  · rw [h.ns, currentNamespace_eq, ho]
    rfl
  · rw [h.off.told, hverbatim]
    rfl

/-! ## States -/

/-- A unit that leaves no element open has let the lexer read on in the same state. -/
theorem onUnit_told (u : MarkupUnit) (ho : (b.onUnit u).opened = []) :
    b.lexer.Told (b.onUnit u).lexer := by
  cases u with
  | endTag tag | text run | mustache m =>
    exact (onUnit_steered (.refl b.lexer) _).2 (by simp)
  | startTag tag =>
    have hlogged : b.lexer.Told (if b.lexer.tracing then
        b.logged (.pulled b.opened.length (MarkupUnit.startTag tag).extent.span) else b).lexer := by
      split
      · exact logged_told (.refl _) _
      · exact .refl _
    unfold onUnit at ho ⊢
    dsimp only at ho ⊢
    generalize (if b.lexer.tracing then
      b.logged (.pulled b.opened.length (MarkupUnit.startTag tag).extent.span) else b) =
        b₀ at ho hlogged ⊢
    unfold onStartTag at ho ⊢
    dsimp only at ho ⊢
    split at ho
    · next hc =>
      rw [if_pos hc]
      refine closeElement_told (scheduleDirectives_told ?_ _ _ _) _
      exact checkNamespaces_told (closeImplied_told hlogged _) _ _
    · exact absurd ho (List.cons_ne_nil _ _)

end Builder
end TemplateSyntax
