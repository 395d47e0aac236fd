import TemplateSyntax.Proofs.Assembler
import TemplateSyntax.Proofs.LexerRun
import TemplateSyntax.Proofs.TreeRanges
import TemplateSyntax.Tree.Outline

/-! # Building the tree

`Built` is what holds of a builder between two units: the ranges of its tree nest, its attributes
and mustaches were read from tokens, what is left to be read later is there, and nothing that was
relied on failed.  Each unit keeps it, and so does each token. -/

namespace TemplateSyntax

variable {cs : List Char} {l : Locator} {taken : List Token} {a : Assembler} {b : Builder}
  {opened outer : List Nat} {floor floor' id : Nat} {closing : Prop}

/-- The attributes of the elements were read from tokens. -/
def AttributesFrom (taken : List Token) (t : Tree) : Prop :=
  ∀ id e, t.element? id = some e → ∀ x ∈ e.attributes,
    ∃ ns y, x = .plain (Builder.plainAttribute ns y) ∧ y.ReadFrom taken

/-- The attributes that are to be read as directives are there. -/
def DirectivesThere (t : Tree) (directives : Array (Nat × Nat)) : Prop :=
  ∀ d ∈ directives, ∃ e x, t.element? d.1 = some e ∧ e.attributes[d.2]? = some x

/-- The mustaches that are to be read are there, with text that was read from tokens. -/
def MustachesFrom (taken : List Token) (t : Tree) (mustaches : Array PendingMustache) : Prop :=
  ∀ m ∈ mustaches, (∃ n, t.node? m.node = some n ∧ ∃ c, n.content = .mustache c) ∧
    ∃ y : Mustache, y.ReadFrom taken ∧ m.value = y.value ∧ m.start = y.opening.extent.span.stop

/-- What holds of a builder whose open elements are `opened`, and whose tree reaches up to
`floor`. -/
structure Built (closing : Prop) (cs : List Char) (l : Locator) (taken : List Token)
    (a : Assembler) (b : Builder) (opened : List Nat) (floor : Nat) : Prop where
  assembler : b.assembler = a
  locator : b.locator = l ∧ b.lexer.locator = l
  tracks : b.lexer.Tracks cs taken
  atContent : closing → b.lexer.AtContent
  noBreach : b.breaches = []
  nested : b.tree.NestedUpTo (l.host 0) opened floor
  attributes : AttributesFrom taken b.tree
  directives : DirectivesThere b.tree b.directives
  mustaches : MustachesFrom taken b.tree b.mustaches

/-- Elements keep their attributes and mustaches stay mustaches. -/
structure KeepsParts (t t' : Tree) : Prop where
  attributes : ∀ id, id < t.size →
    (t'.element? id).map Element.attributes = (t.element? id).map Element.attributes
  mustaches : ∀ id n c, t.node? id = some n → n.content = .mustache c →
    ∃ n', t'.node? id = some n' ∧ n'.content = .mustache c

theorem KeepsParts.modify {t : Tree} {f : Node → Node}
    (he : ∀ n, (f n).element?.map Element.attributes = n.element?.map Element.attributes)
    (hm : ∀ n c, n.content = .mustache c → (f n).content = .mustache c) :
    KeepsParts t (t.modify id f) where
  attributes j hj := by
    obtain ⟨n, hn⟩ := Tree.exists_node hj
    rw [Tree.element?_eq hn]
    by_cases hid : id = j
    · subst hid
      rw [Tree.element?_eq (Tree.node?_modify_self hn), he]
    · rw [Tree.element?_eq ((Tree.node?_modify_of_ne hid).trans hn)]
  mustaches j n c hn hc := by
    by_cases hid : id = j
    · subst hid
      exact ⟨f n, Tree.node?_modify_self hn, hm n c hc⟩
    · exact ⟨n, (Tree.node?_modify_of_ne hid).trans hn, hc⟩

theorem KeepsParts.append (t : Tree) (p : Nat) (content : NodeContent) (extent : Extent) :
    KeepsParts t (t.append p content extent) := by
  have hkeeps : KeepsParts t (t.modify p fun n => n.addChild t.size) := by
    refine .modify (fun n => ?_) fun n c hc => ?_
    · unfold Node.addChild
      split
      · next hc => simp [Node.element?, hc]
      · next e hc => simp [Node.element?, hc]
      · rfl
    · simp [Node.addChild, hc]
  refine ⟨fun j hj => ?_, fun j n c hn hc => ?_⟩
  · rw [Tree.element?, Tree.node?_append (Nat.ne_of_lt hj)]
    exact hkeeps.attributes j hj
  · rw [Tree.node?_append (Nat.ne_of_lt (Tree.lt_size hn))]
    exact hkeeps.mustaches j n c hn hc

/-- None of the elements has an end tag. -/
def NoEndTags (t : Tree) (ids : List Nat) : Prop :=
  ∀ id ∈ ids, ∀ x, t.tagSpans? id = some x → x.stop = none

namespace Builder

theorem check_of (b : Builder) {ok : Bool} (h : ok = true) (x : Breach) : b.check ok x = b := by
  subst h
  rfl

/-- A node and its last child are there in a tree whose nodes belong together. -/
theorem isWhole_of (h : b.tree.Linked) (hid : id < b.tree.size) : b.isWhole id = true := by
  obtain ⟨n, hn⟩ := Tree.exists_node hid
  rw [isWhole, hn, Option.any_some]
  cases hc : n.children.back? with
  | none => rfl
  | some c =>
    have hmem : c ∈ b.tree.children id := by
      rw [Tree.children_eq hn]
      exact Array.mem_of_back? hc
    exact Tree.node?_isSome.2 (h.child id c hmem).2.2

theorem closeElement_opened (b : Builder) (id : Nat) : (b.closeElement id).opened = b.opened := by
  unfold closeElement
  dsimp only
  split <;> rfl

/-- Closing an element changes its place and nothing else in it. -/
theorem closeElement_element? (b : Builder) (id j : Nat) :
    (b.closeElement id).tree.element? j = b.tree.element? j := by
  have htree : ∀ e, (b.tree.modify id fun n =>
      { n with extent := n.extent.through (b.lastExtent e) }).element? j =
        b.tree.element? j := fun e => Tree.element?_modify fun n => rfl
  unfold closeElement
  cases he : b.tree.element? id with
  | none => dsimp only; split <;> rfl
  | some e => dsimp only; split <;> exact htree e

theorem closeElement_tagSpans? (b : Builder) (id j : Nat) :
    (b.closeElement id).tree.tagSpans? j = b.tree.tagSpans? j := by
  rw [Tree.tagSpans?, Tree.tagSpans?, closeElement_element?]

theorem closeInnermost_cons (ho : b.opened = id :: outer) (count : Nat) :
    b.closeInnermost (count + 1) =
      ({ b with opened := outer }.closeElement id).closeInnermost count := by
  rw [closeInnermost]
  split
  · next heq =>
    rw [ho] at heq
    obtain ⟨rfl, rfl⟩ := List.cons.inj heq
    rfl
  · next heq => simp [ho] at heq

theorem closeInnermost_nil (ho : b.opened = []) (count : Nat) : b.closeInnermost count = b := by
  cases count with
  | zero => rfl
  | succ count =>
    rw [closeInnermost]
    split
    · next heq => simp [ho] at heq
    · rfl

/-- One more element is closed at the end. -/
theorem closeInnermost_succ (b : Builder) (count : Nat) :
    b.closeInnermost (count + 1) = (b.closeInnermost count).closeInnermost 1 := by
  induction count generalizing b with
  | zero => rfl
  | succ count ih =>
    cases ho : b.opened with
    | nil => simp only [closeInnermost_nil ho]
    | cons id outer => rw [closeInnermost_cons ho, closeInnermost_cons ho, ih]

end Builder

namespace Built

/-- Nothing depends on the namespace of the lexer, on whether double braces count and on the
log. -/
theorem redirect (h : Built closing cs l taken a b opened floor) (ns : Namespace)
    (interpolating : Bool) (log : Array LogEntry) :
    Built closing cs l taken a { b with lexer := { b.lexer with ns, interpolating, log } } opened
      floor :=
  { h with
    locator := h.locator
    tracks := h.tracks.outside ns interpolating log
    atContent := fun hc => { h.atContent hc with } }

/-- The tree changes, and its attributes and mustaches stay. -/
theorem retree (h : Built closing cs l taken a b opened floor) {t : Tree} {ids : List Nat}
    (hn : t.NestedUpTo (l.host 0) ids floor') (hk : KeepsParts b.tree t)
    (hnew : ∀ id e, b.tree.size ≤ id → t.element? id = some e → ∀ x ∈ e.attributes,
      ∃ ns y, x = .plain (Builder.plainAttribute ns y) ∧ y.ReadFrom taken) :
    Built closing cs l taken a { b with tree := t } ids floor' := by
  refine { h with
    nested := hn
    attributes := fun id e he => ?_
    directives := fun d hd => ?_
    mustaches := fun m hm => ?_ }
  · by_cases hid : id < b.tree.size
    · have heq := hk.attributes id hid
      rw [he, Option.map_some] at heq
      obtain ⟨e', he', ha⟩ := Option.map_eq_some_iff.1 heq.symm
      exact ha ▸ h.attributes id e' he'
    · exact hnew id e (Nat.le_of_not_lt hid) he
  · obtain ⟨e, y, he, hy⟩ := h.directives d hd
    obtain ⟨n, hnode, -⟩ := Option.bind_eq_some_iff.1 he
    have heq := hk.attributes d.1 (Tree.lt_size hnode)
    rw [he, Option.map_some] at heq
    obtain ⟨e', he', ha⟩ := Option.map_eq_some_iff.1 heq
    exact ⟨e', y, he', ha ▸ hy⟩
  · obtain ⟨⟨n, hnode, c, hc⟩, hsource⟩ := h.mustaches m hm
    obtain ⟨n', hn', hc'⟩ := hk.mustaches m.node n c hnode hc
    exact ⟨⟨n', hn', c, hc'⟩, hsource⟩

/-- Nor on the open elements on record, on the element that turned interpolation off and on the
diagnostics. -/
theorem resume (h : Built closing cs l taken a b opened floor) (ids : List Nat)
    (verbatim : Option Nat) (diagnostics : Array Diagnostic) :
    Built closing cs l taken a { b with opened := ids, verbatim, diagnostics } opened floor :=
  { h with }

theorem logged (h : Built closing cs l taken a b opened floor) (entry : LogEntry) :
    Built closing cs l taken a (b.logged entry) opened floor := h.redirect _ _ _

theorem syncNamespace (h : Built closing cs l taken a b opened floor) :
    Built closing cs l taken a b.syncNamespace opened floor := h.redirect _ _ _

/-- A diagnostic in the text. -/
theorem report (h : Built closing cs l taken a b opened floor) (cause : Cause) {offset : Nat}
    (hlo : l.host 0 ≤ offset) (hhi : offset ≤ l.host l.index.size) :
    Built closing cs l taken a (b.report cause offset) opened floor := by
  have hcovers : b.locator.covers offset = true := by
    rw [h.locator.1, Locator.covers]
    simp [hlo, hhi]
  unfold Builder.report
  rw [b.check_of hcovers]
  exact h.resume _ _ _

/-! ## Elements are closed -/

/-- Where an element ends that has no end tag, or has it behind all its children. -/
theorem lastExtent (h : Built closing cs l taken a b (id :: outer) floor) {e : Element}
    (he : b.tree.element? id = some e) (hfloor : floor ≤ floor')
    (hend : ∀ s, e.tagSpans.stop = some s → floor ≤ s.start ∧ s.start ≤ s.stop ∧ s.stop ≤ floor') :
    InOrder e.tagSpans.start.stop (b.tree.childSpans id ++ e.tagSpans.stop.toList)
      (b.lastExtent e).span.stop ∧ (b.lastExtent e).span.stop ≤ floor' := by
  obtain ⟨x, hx, -, hin⟩ := h.nested.openUpTo id (List.mem_cons_self ..)
  obtain rfl : e.tagSpans = x := by
    rw [Tree.tagSpans?, he] at hx
    exact Option.some.inj hx
  obtain ⟨n, hn, hne⟩ := Option.bind_eq_some_iff.1 he
  have hchildren : b.tree.children id = e.children := by
    rw [Tree.children_eq hn, Node.children]
    unfold Node.element? at hne
    split at hne
    · next hc =>
      obtain rfl := Option.some.inj hne
      rw [hc]
    · simp at hne
  unfold Builder.lastExtent
  split
  · next tag htag =>
    have hstop : e.tagSpans.stop = some tag.span := by rw [Element.tagSpans, htag]; rfl
    obtain ⟨h1, h2, h3⟩ := hend _ hstop
    rw [hstop, Option.toList_some, InOrder.snoc_iff]
    exact ⟨⟨hin.mono (Nat.le_refl _) h1, h2, Nat.le_refl _⟩, h3⟩
  · next htag =>
    have hstop : e.tagSpans.stop = none := by rw [Element.tagSpans, htag]; rfl
    rw [hstop, Option.toList_none, List.append_nil]
    by_cases hnil : e.children.size = 0
    · have hnone : e.children = #[] := Array.size_eq_zero_iff.1 hnil
      have hspans : b.tree.childSpans id = [] := by
        rw [Tree.childSpans, hchildren, hnone]
        rfl
      rw [hspans] at hin ⊢
      rw [hnone]
      exact ⟨Nat.le_refl _, Nat.le_trans hin hfloor⟩
    · obtain ⟨init, c, hc⟩ := Array.eq_push_of_size_ne_zero hnil
      obtain ⟨-, -, hlt⟩ := h.nested.linked.child id c (by
        rw [hchildren, hc]
        exact Array.mem_push_self)
      obtain ⟨m, hm⟩ := Tree.exists_node hlt
      have hspans : b.tree.childSpans id = init.toList.map b.tree.spanOf ++ [m.extent.span] := by
        rw [Tree.childSpans, hchildren, hc, Array.toList_push, List.map_append, List.map_singleton,
          Tree.spanOf_eq hm]
      have hback : e.children.back?.bind b.tree.node? = some m := by
        rw [hc, Array.back?_push, Option.bind_some, hm]
      rw [hspans, InOrder.snoc_iff] at hin
      rw [hspans, InOrder.snoc_iff, hback]
      exact ⟨⟨hin.1, hin.2.1, Nat.le_refl _⟩, Nat.le_trans hin.2.2 hfloor⟩

/-- The innermost element is closed. -/
theorem closeElement (h : Built closing cs l taken a b (id :: outer) floor)
    (hfloor : floor ≤ floor')
    (hend : ∀ x, b.tree.tagSpans? id = some x → ∀ s, x.stop = some s →
      floor ≤ s.start ∧ s.start ≤ s.stop ∧ s.stop ≤ floor') :
    Built closing cs l taken a (b.closeElement id) outer floor' := by
  obtain ⟨x, hx, -⟩ := h.nested.openUpTo id (List.mem_cons_self ..)
  obtain ⟨e, he, rfl⟩ := Option.map_eq_some_iff.1 hx
  obtain ⟨hin, hstop⟩ := h.lastExtent he hfloor (hend _ hx)
  have hwhole : b.isWhole id = true :=
    b.isWhole_of h.nested.linked (h.nested.spine.lt h.nested.linked).2.1
  have hnested := h.nested.close
    (f := fun n => { n with extent := n.extent.through (b.lastExtent e) })
    (fun n => rfl) (fun n => ⟨rfl, rfl⟩) hx hin hfloor hstop
  have hclosed := h.retree hnested (.modify (fun n => rfl) fun n c hc => hc)
    fun j e' hj he' => by
      obtain ⟨n, hn, -⟩ := Option.bind_eq_some_iff.1 he'
      exact absurd (Tree.size_modify .. ▸ Tree.lt_size hn) (Nat.not_lt.2 hj)
  unfold Builder.closeElement
  rw [he]
  dsimp only
  rw [b.check_of hwhole]
  split
  · exact (hclosed.redirect _ true _).resume _ none _
  · exact hclosed

/-- Elements without end tags are closed. -/
theorem closeInnermost {ids : List Nat} (h : Built closing cs l taken a b (ids ++ outer) floor)
    (ho : b.opened = ids ++ outer) (hno : NoEndTags b.tree ids) :
    Built closing cs l taken a (b.closeInnermost ids.length) outer floor ∧
      (b.closeInnermost ids.length).opened = outer ∧
      ∀ j, (b.closeInnermost ids.length).tree.tagSpans? j = b.tree.tagSpans? j := by
  induction ids generalizing b with
  | nil => exact ⟨h, ho, fun _ => rfl⟩
  | cons id ids ih =>
    have hclosed := (h.resume (ids ++ outer) b.verbatim b.diagnostics).closeElement
      (Nat.le_refl _) fun x hx s hs => by
        rw [hno id (List.mem_cons_self ..) x hx] at hs
        simp at hs
    have htags : ∀ j, ({ b with opened := ids ++ outer }.closeElement id).tree.tagSpans? j =
        b.tree.tagSpans? j := fun j => Builder.closeElement_tagSpans? _ id j
    rw [List.length_cons, Builder.closeInnermost_cons ho]
    obtain ⟨h1, h2, h3⟩ := ih hclosed (Builder.closeElement_opened _ _) fun j hj x hx =>
      hno j (List.mem_cons_of_mem _ hj) x ((htags j).symm.trans hx)
    exact ⟨h1, h2, fun j => (h3 j).trans (htags j)⟩

end Built

end TemplateSyntax
