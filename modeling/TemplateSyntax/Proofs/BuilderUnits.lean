import TemplateSyntax.Proofs.Builder

/-! # Units build the tree

A builder stands between two units when what it built is in order and none of its open elements has
an end tag.  Each kind of unit keeps this, whether elements are opened by it or closed, by its name,
by the name of an element around them, or because of what may not stand in them. -/

namespace TemplateSyntax

variable {cs : List Char} {l : Locator} {taken : List Token} {a : Assembler} {b : Builder}
  {opened : List Nat} {floor floor' id : Nat} {closing : Prop}

/-- What holds of a builder between two units. -/
structure Stands (closing : Prop) (cs : List Char) (l : Locator) (taken : List Token)
    (a : Assembler) (b : Builder) (floor : Nat) : Prop where
  built : Built closing cs l taken a b b.opened floor
  noEndTags : NoEndTags b.tree b.opened

theorem NoEndTags.congr {t t' : Tree} {ids : List Nat} (h : NoEndTags t ids)
    (ht : ∀ id ∈ ids, t'.tagSpans? id = t.tagSpans? id) : NoEndTags t' ids :=
  fun id hid x hx => h id hid x ((ht id hid).symm.trans hx)

/-- The first element of a list that is found stands behind as many as its index says. -/
theorem exists_append_of_find {α : Type} {p : α → Bool} {xs : List α} {i : Nat} {x : α}
    (hi : xs.findIdx? p = some i) (hx : xs.find? p = some x) :
    ∃ front back, xs = front ++ x :: back ∧ front.length = i := by
  obtain ⟨hp, front, back, rfl, hfront⟩ := List.find?_eq_some_iff_append.1 hx
  refine ⟨front, back, rfl, ?_⟩
  have hnone : front.findIdx? p = none :=
    List.findIdx?_eq_none_iff.2 fun y hy => by simpa using hfront y hy
  rw [List.findIdx?_append, hnone, List.findIdx?_cons, hp] at hi
  simpa using hi

namespace Built

theorem raise (h : Built closing cs l taken a b opened floor) (hf : floor ≤ floor') :
    Built closing cs l taken a b opened floor' :=
  { h with nested := h.nested.raise hf }

/-- The text that was read starts with the template. -/
theorem host_le (h : Built closing cs l taken a b opened floor) : l.host 0 ≤ floor :=
  h.nested.rootChildren.le

/-- A node is added inside the innermost element. -/
theorem addNode (h : Built closing cs l taken a b b.opened floor) {ids : List Nat}
    {content : NodeContent} {extent : Extent}
    (hn : (b.tree.append (Tree.tip b.opened) content extent).NestedUpTo (l.host 0) ids floor')
    (hnew : ∀ e, content = .element e → ∀ x ∈ e.attributes,
      ∃ ns y, x = .plain (Builder.plainAttribute ns y) ∧ y.ReadFrom taken) :
    Built closing cs l taken a (b.addNode content extent) ids floor' := by
  have hcurrent : b.current = Tree.tip b.opened := rfl
  unfold Builder.addNode
  rw [hcurrent, b.check_of h.nested.canHold_tip]
  refine h.retree hn (.append ..) fun id e hid he => ?_
  obtain ⟨n, hnode, hne⟩ := Option.bind_eq_some_iff.1 he
  have hlt := Tree.lt_size hnode
  rw [Tree.size_append] at hlt
  obtain rfl : id = b.tree.size := Nat.le_antisymm (Nat.le_of_lt_succ hlt) hid
  obtain rfl := Option.some.inj (hnode.symm.trans (Tree.node?_append_self ..))
  cases content with
  | element e' =>
    obtain rfl : e' = e := Option.some.inj hne
    exact hnew e' rfl
  | root cs | text v | mustache c => simp [Node.element?] at hne

/-- The attributes of an element that are directives are put on record. -/
theorem scheduleDirectives (h : Built closing cs l taken a b opened floor) {e : Element}
    {attributes : Array PlainAttribute} (he : b.tree.element? id = some e)
    (ha : e.attributes = attributes.map .plain) (name : String) :
    Built closing cs l taken a (b.scheduleDirectives id name attributes) opened floor ∧
      (b.scheduleDirectives id name attributes).tree = b.tree ∧
      (b.scheduleDirectives id name attributes).opened = b.opened := by
  have hfound : Built closing cs l taken a { b with
      directives := b.directives ++
        (Builder.directiveIndices name attributes).map fun i => (id, i) } opened floor := by
    refine { h with directives := fun d hd => ?_ }
    have hd' : d ∈ b.directives ∨ ∃ i ∈ Builder.directiveIndices name attributes, (id, i) = d := by
      rw [← Array.mem_toList_iff, Array.toList_appendList, List.mem_append, List.mem_map] at hd
      exact hd.imp_left Array.mem_toList_iff.1
    rcases hd' with hd' | ⟨i, hi, rfl⟩
    · exact h.directives d hd'
    · obtain ⟨hi, -⟩ := List.mem_filter.1 hi
      rw [List.mem_range] at hi
      refine ⟨e, .plain attributes[i], he, ?_⟩
      simp [ha, hi]
  unfold Builder.scheduleDirectives
  split
  · exact ⟨h, rfl, rfl⟩
  · dsimp only
    split
    · exact ⟨((hfound.logged _).redirect _ false _).resume _ (some id) _, rfl, rfl⟩
    · exact ⟨hfound, rfl, rfl⟩

/-- The attributes that declare a namespace are checked. -/
theorem checkNamespaces (h : Built closing cs l taken a b opened floor) (ns : Namespace)
    {attributes : Array PlainAttribute} (hkeys : ∀ x ∈ attributes,
      l.host 0 ≤ x.key.extent.span.start ∧ x.key.extent.span.start ≤ l.host l.index.size) :
    Built closing cs l taken a (b.checkNamespaces ns attributes) opened floor ∧
      (b.checkNamespaces ns attributes).tree = b.tree ∧
      (b.checkNamespaces ns attributes).opened = b.opened := by
  unfold Builder.checkNamespaces
  refine Array.foldl_induction (fun _ (b' : Builder) =>
    Built closing cs l taken a b' opened floor ∧ b'.tree = b.tree ∧ b'.opened = b.opened)
    ⟨h, rfl, rfl⟩ fun i b' ih => ?_
  split
  · exact ih
  · split
    · exact ih
    · obtain ⟨h1, h2⟩ := hkeys _ (Array.getElem_mem i.2)
      exact ⟨ih.1.report _ h1 h2, ih.2⟩

end Built

namespace Stands

theorem raise (h : Stands closing cs l taken a b floor) (hf : floor ≤ floor') :
    Stands closing cs l taken a b floor' :=
  ⟨h.built.raise hf, h.noEndTags⟩

/-! ## Elements are closed -/

/-- Some of the innermost elements are closed. -/
theorem closeInnermost (h : Stands closing cs l taken a b floor) {ids outer : List Nat}
    (ho : b.opened = ids ++ outer) :
    Stands closing cs l taken a (b.closeInnermost ids.length) floor := by
  have hno : NoEndTags b.tree (ids ++ outer) := ho ▸ h.noEndTags
  obtain ⟨h1, h2, h3⟩ := (ho ▸ h.built : Built closing cs l taken a b (ids ++ outer) floor)
    |>.closeInnermost ho fun id hid => hno id (List.mem_append_left _ hid)
  refine ⟨h2.symm ▸ h1, ?_⟩
  rw [h2]
  exact NoEndTags.congr (fun id hid => hno id (List.mem_append_right _ hid)) fun id _ => h3 id

/-- A start tag closes the element around it if that may not hold it. -/
theorem closeImplied (h : Stands closing cs l taken a b floor) (name : String) :
    Stands closing cs l taken a (b.closeImplied name) floor := by
  unfold Builder.closeImplied
  split
  · next id outer e ho he =>
    split
    · have hclosed : Stands closing cs l taken a (b.closeInnermost [id].length) floor :=
        h.closeInnermost ho
      rw [List.length_singleton, Builder.closeInnermost_cons ho] at hclosed
      exact ⟨hclosed.built.syncNamespace, hclosed.noEndTags⟩
    · exact h
  · exact h

/-- The innermost elements are closed up to one that gets an end tag, and that one too. -/
theorem closeUpTo (h : Stands closing cs l taken a b floor) {inner outer : List Nat} {tag : Extent}
    (ho : b.opened = inner ++ id :: outer) (hfloor : floor ≤ tag.span.start)
    (hle : tag.span.start ≤ tag.span.stop) {b' : Builder}
    (hb : b' = { b with tree := b.tree.modifyElement id fun e => { e with endTag := some tag } }) :
    Stands closing cs l taken a (b'.closeInnermost (inner.length + 1)) tag.span.stop := by
  have hmem : id ∈ b.opened := by
    rw [ho]
    exact List.mem_append_right _ (List.mem_cons_self ..)
  have hno : NoEndTags b.tree (inner ++ id :: outer) := ho ▸ h.noEndTags
  have hnodup : b.opened.Nodup := h.built.nested.spine.nodup h.built.nested.linked
  rw [ho, List.nodup_append, List.nodup_cons] at hnodup
  obtain ⟨-, ⟨hout, -⟩, hin⟩ := hnodup
  obtain ⟨x, hx, -⟩ := h.built.nested.openUpTo id hmem
  have hset : Built closing cs l taken a b' b.opened floor := by
    rw [hb]
    refine h.built.retree (h.built.nested.setEndTag hmem tag) ?_ fun j e hj he => ?_
    · refine .modify (fun n => ?_) fun n c hc => ?_
      · unfold Node.mapElement
        split
        · next hc => simp [Node.element?, hc]
        · rfl
      · simp [Node.mapElement, hc]
    · obtain ⟨n, hn, -⟩ := Option.bind_eq_some_iff.1 he
      exact absurd (Tree.size_modify .. ▸ Tree.lt_size hn) (Nat.not_lt.2 hj)
  -- the element gets its end tag, and those around it and inside it do not change
  have htags : ∀ j, b'.tree.tagSpans? j =
      if id = j then (b.tree.tagSpans? j).map fun x => { x with stop := some tag.span }
      else b.tree.tagSpans? j := by
    intro j
    rw [hb]
    exact Tree.tagSpans?_setEndTag ..
  rw [ho] at hset
  obtain ⟨h1, h2, h3⟩ := hset.closeInnermost (by rw [hb]; exact ho) (NoEndTags.congr
    (fun j hj => hno j (List.mem_append_left _ hj)) fun j hj => by
      rw [htags, if_neg fun heq => hin j hj id (List.mem_cons_self ..) heq.symm])
  have hclosed : Built closing cs l taken a
      ({ b'.closeInnermost inner.length with opened := outer }.closeElement id) outer
      tag.span.stop :=
    (h1.resume outer _ _).closeElement (Nat.le_trans hfloor hle) fun y hy s hs => by
      have hself := (h3 id).symm.trans hy
      rw [htags, if_pos rfl, hx] at hself
      obtain rfl := Option.some.inj hself
      obtain rfl := Option.some.inj hs
      exact ⟨hfloor, hle, Nat.le_refl _⟩
  rw [Builder.closeInnermost_succ, Builder.closeInnermost_cons h2]
  have hopened : ({ b'.closeInnermost inner.length with opened := outer }.closeElement id).opened =
      outer := Builder.closeElement_opened _ id
  refine ⟨hopened.symm ▸ hclosed, NoEndTags.congr (t := b.tree) ?_ fun j hj => ?_⟩
  · show NoEndTags b.tree ({ b'.closeInnermost inner.length with opened := outer }.closeElement
      id).opened
    rw [hopened]
    exact fun j hj => hno j (List.mem_append_right _ (List.mem_cons_of_mem _ hj))
  · have hj' : j ∈ outer := hopened ▸ hj
    refine (Builder.closeElement_tagSpans? _ id j).trans ((h3 j).trans ?_)
    have hne : id ≠ j := by
      rintro rfl
      exact hout hj'
    rw [htags, if_neg hne]

/-- An end tag closes the innermost element of its name, and all inside it. -/
theorem onEndTag (h : Stands closing cs l taken a b floor) {tag : EndTag}
    (hfloor : floor ≤ tag.extent.span.start)
    (hle : tag.extent.span.start ≤ tag.extent.span.stop)
    (hhi : tag.extent.span.stop ≤ l.host l.index.size) :
    Stands closing cs l taken a (b.onEndTag tag) tag.extent.span.stop := by
  unfold Builder.onEndTag
  split
  · next depth target hdepth htarget =>
    obtain ⟨inner, outer, ho, rfl⟩ := exists_append_of_find hdepth htarget
    have hclosed := h.closeUpTo ho hfloor hle rfl
    exact ⟨hclosed.built.syncNamespace, hclosed.noEndTags⟩
  · have hreport := h.built.report (.invalidEndTag tag.rawName.toLower)
      (Nat.le_trans h.built.host_le hfloor) (Nat.le_trans hle hhi)
    exact Stands.raise ⟨hreport, h.noEndTags⟩ (Nat.le_trans hfloor hle)

/-! ## Nodes are added -/

/-- A text or a mustache is added. -/
theorem addLeaf (h : Stands closing cs l taken a b floor) {content : NodeContent} {extent : Extent}
    (hc : (Node.mk content (some (Tree.tip b.opened)) extent).children = #[])
    (he : (Node.mk content (some (Tree.tip b.opened)) extent).element? = none)
    (hfloor : floor ≤ extent.span.start) (hle : extent.span.start ≤ extent.span.stop) :
    Stands closing cs l taken a (b.addNode content extent) extent.span.stop := by
  refine ⟨h.built.addNode (h.built.nested.append_leaf hfloor hle hc he) fun e heq => ?_,
    h.noEndTags.congr fun id hid => Tree.tagSpans?_append (Nat.ne_of_lt ?_)⟩
  · rw [heq] at he
    simp [Node.element?] at he
  · exact (h.built.nested.spine.lt_size h.built.nested.linked hid).2

theorem onText (h : Stands closing cs l taken a b floor) {run : TextRun}
    (hfloor : floor ≤ run.extent.span.start)
    (hle : run.extent.span.start ≤ run.extent.span.stop) :
    Stands closing cs l taken a (b.onText run) run.extent.span.stop :=
  h.addLeaf rfl rfl hfloor hle

theorem onMustache (h : Stands closing cs l taken a b floor) {m : Mustache}
    (hm : m.ReadFrom taken) (hfloor : floor ≤ m.extent.span.start)
    (hle : m.extent.span.start ≤ m.extent.span.stop) :
    Stands closing cs l taken a (b.onMustache m) m.extent.span.stop := by
  have hadd : Stands closing cs l taken a
      (b.addNode (.mustache ⟨none, #[], m.extent⟩) m.extent) m.extent.span.stop :=
    h.addLeaf rfl rfl hfloor hle
  refine ⟨{ hadd.built with mustaches := fun x hx => ?_ }, hadd.noEndTags⟩
  rcases Array.mem_push.1 hx with hx | rfl
  · exact hadd.built.mustaches x hx
  · exact ⟨⟨_, Tree.node?_append_self .., _, rfl⟩, m, hm, rfl, rfl⟩

/-- An element is added, which is open, and its directives are put on record. -/
theorem addElement (h : Stands closing cs l taken a b floor) {e : Element}
    {attributes : Array PlainAttribute} (ha : e.attributes = attributes.map .plain)
    (hend : e.endTag = none) (hc : e.children = #[])
    (hfrom : ∀ x ∈ e.attributes,
      ∃ ns y, x = .plain (Builder.plainAttribute ns y) ∧ y.ReadFrom taken)
    (hfloor : floor ≤ e.startTag.span.start)
    (hattr : InOrder e.startTag.span.start e.tagSpans.attributes e.startTag.span.stop)
    {b' : Builder}
    (hb : b' = (b.addNode (.element e) e.startTag).scheduleDirectives b.tree.size e.name
      attributes) :
    Built closing cs l taken a b' (b.tree.size :: b.opened) e.startTag.span.stop ∧
      b'.opened = b.opened ∧ NoEndTags b'.tree (b.tree.size :: b.opened) := by
  have hadd := h.built.addNode (h.built.nested.append_element hfloor hc hattr) fun e' heq => by
    obtain rfl := NodeContent.element.inj heq
    exact hfrom
  have hself : (b.addNode (.element e) e.startTag).tree.element? b.tree.size = some e :=
    Tree.element?_eq (Tree.node?_append_self ..)
  obtain ⟨h1, h2, h3⟩ := hadd.scheduleDirectives hself ha e.name
  rw [← hb] at h1 h2 h3
  refine ⟨h1, h3, fun id hid x hx => ?_⟩
  rw [h2] at hx
  rcases List.mem_cons.1 hid with rfl | hid
  · rw [Tree.tagSpans?, hself, Option.map_some] at hx
    obtain rfl := Option.some.inj hx
    rw [Element.tagSpans, hend]
    rfl
  · have hne := Nat.ne_of_lt (h.built.nested.spine.lt_size h.built.nested.linked hid).2
    exact h.noEndTags id hid x ((Tree.tagSpans?_append hne).symm.trans hx)

end Stands

end TemplateSyntax
