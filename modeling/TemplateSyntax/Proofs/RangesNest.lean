import TemplateSyntax.Proofs.TreeRanges

/-! # Ranges that nest

When no element is open any more and the root has its place, the ranges of a tree nest: each node
lies in its parent, siblings follow each other, and the children of an element stand between its
tags.  Nothing but the spans and the links between nodes matters to this, so that it holds of every
tree of the same shape. -/

namespace TemplateSyntax
namespace Tree

variable {t t' : Tree} {id lo floor : Nat}

/-- The ranges of a tree nest and are in order. -/
structure RangesNest (t : Tree) : Prop where
  /-- Parents and children belong together. -/
  linked : t.Linked
  /-- No node ends before it starts. -/
  proper : ∀ id, id < t.size → (t.spanOf id).start ≤ (t.spanOf id).stop
  /-- Each node lies in its parent. -/
  inParent : ∀ id p, t.parent? id = some p → (t.spanOf p).containsSpan (t.spanOf id) = true
  /-- A child ends before the next one starts. -/
  siblings : ∀ id i c d, (t.children id)[i]? = some c → (t.children id)[i + 1]? = some d →
    (t.spanOf c).stop ≤ (t.spanOf d).start
  /-- The start tag of an element lies in the element. -/
  startTag : ∀ id x, t.tagSpans? id = some x → (t.spanOf id).containsSpan x.start = true
  /-- So does its end tag, if it has one, behind the start tag. -/
  endTag : ∀ id x s, t.tagSpans? id = some x → x.stop = some s →
    (t.spanOf id).containsSpan s = true ∧ x.start.stop ≤ s.start
  /-- The attributes follow each other in the start tag. -/
  attributes : ∀ id x, t.tagSpans? id = some x → InOrder x.start.start x.attributes x.start.stop
  /-- All children of an element lie behind its start tag and in front of its end tag. -/
  betweenTags : ∀ id x c, t.tagSpans? id = some x → c ∈ t.children id →
    x.start.stop ≤ (t.spanOf c).start ∧ ∀ s, x.stop = some s → (t.spanOf c).stop ≤ s.start
  /-- The root goes from its first child to its last. -/
  root : (∀ c, (t.children Tree.root)[0]? = some c →
      (t.spanOf Tree.root).start = (t.spanOf c).start) ∧
    ∀ c, (t.children Tree.root).back? = some c → (t.spanOf Tree.root).stop = (t.spanOf c).stop

/-- Two trees whose nodes are linked in the same way and have the same spans. -/
structure SameShape (t t' : Tree) : Prop where
  size : t'.size = t.size
  parent : ∀ id, t'.parent? id = t.parent? id
  children : ∀ id, t'.children id = t.children id
  span : ∀ id, t'.spanOf id = t.spanOf id
  tags : ∀ id, t'.tagSpans? id = t.tagSpans? id

theorem SameShape.refl (t : Tree) : SameShape t t :=
  ⟨rfl, fun _ => rfl, fun _ => rfl, fun _ => rfl, fun _ => rfl⟩

theorem SameShape.trans {t'' : Tree} (h : SameShape t t') (h' : SameShape t' t'') :
    SameShape t t'' where
  size := h'.size.trans h.size
  parent id := (h'.parent id).trans (h.parent id)
  children id := (h'.children id).trans (h.children id)
  span id := (h'.span id).trans (h.span id)
  tags id := (h'.tags id).trans (h.tags id)

theorem RangesNest.congr (h : t.RangesNest) (hs : SameShape t t') : t'.RangesNest where
  linked := h.linked.congr hs.size hs.parent hs.children
  proper id hid := by
    rw [hs.span]
    exact h.proper id (hs.size ▸ hid)
  inParent id p hp := by
    rw [hs.span, hs.span]
    exact h.inParent id p ((hs.parent id).symm.trans hp)
  siblings id i c d hc hd := by
    rw [hs.children] at hc hd
    rw [hs.span, hs.span]
    exact h.siblings id i c d hc hd
  startTag id x hx := by
    rw [hs.span]
    exact h.startTag id x ((hs.tags id).symm.trans hx)
  endTag id x s hx hstop := by
    rw [hs.span]
    exact h.endTag id x s ((hs.tags id).symm.trans hx) hstop
  attributes id x hx := h.attributes id x ((hs.tags id).symm.trans hx)
  betweenTags id x c hx hc := by
    rw [hs.span]
    exact h.betweenTags id x c ((hs.tags id).symm.trans hx) (hs.children id ▸ hc)
  root := by
    simp only [hs.children, hs.span]
    exact h.root

/-- The spans of children in order are those of siblings that follow each other. -/
theorem siblings_of_inOrder {lo hi i c d : Nat} (h : InOrder lo (t.childSpans id) hi)
    (hc : (t.children id)[i]? = some c) (hd : (t.children id)[i + 1]? = some d) :
    (t.spanOf c).stop ≤ (t.spanOf d).start := by
  rw [← Array.getElem?_toList] at hc hd
  refine h.next (i := i) ?_ ?_
  · rw [childSpans, List.getElem?_map, hc, Option.map_some]
  · rw [childSpans, List.getElem?_map, hd, Option.map_some]

theorem mem_childSpans {c : Nat} (h : c ∈ t.children id) : t.spanOf c ∈ t.childSpans id :=
  List.mem_map_of_mem (by simpa using h)

namespace NestedUpTo

section
variable {p c i d : Nat} {x : TagSpans} (h : NestedUpTo lo t [] floor)
include h

/-- When no element is open, every node but the root encloses what is in it. -/
theorem encloses (hid : id ≠ root) (hlt : id < t.size) : t.Encloses id :=
  (h.closed id (Nat.pos_of_ne_zero hid) hlt (by simp)).1

/-- The root is no child. -/
theorem child_ne_root (hc : c ∈ t.children p) : c ≠ root := by
  obtain ⟨-, hlt, -⟩ := h.linked.child p c hc
  exact Nat.ne_of_gt (Nat.lt_of_le_of_lt (Nat.zero_le p) hlt)

/-- The parts of an element are in order in it. -/
theorem parts_inOrder (hx : t.tagSpans? id = some x) : id ≠ root ∧
    InOrder (t.spanOf id).start (x.start :: (t.childSpans id ++ x.stop.toList))
      (t.spanOf id).stop := by
  have hid : id ≠ root := by
    rintro rfl
    rw [h.rootHolds.2] at hx
    simp at hx
  obtain ⟨e, he, -⟩ := Option.map_eq_some_iff.1 hx
  obtain ⟨n, hn, -⟩ := Option.bind_eq_some_iff.1 he
  exact ⟨hid, (h.encloses hid (lt_size hn)).parts x hx⟩

/-- What has a child is the root or an element. -/
theorem exists_tags (hp : p ≠ root) (hc : c ∈ t.children p) : ∃ x, t.tagSpans? p = some x := by
  obtain ⟨-, hlt, hsize⟩ := h.linked.child p c hc
  cases hx : t.tagSpans? p with
  | none =>
    rw [(h.encloses hp (Nat.lt_trans hlt hsize)).leaf hx] at hc
    simp at hc
  | some x => exact ⟨x, rfl⟩

/-- A child lies in its parent. -/
theorem child_within (hp : p ≠ root) (hc : c ∈ t.children p) :
    (t.spanOf p).start ≤ (t.spanOf c).start ∧ (t.spanOf c).stop ≤ (t.spanOf p).stop := by
  obtain ⟨x, hx⟩ := h.exists_tags hp hc
  obtain ⟨hstart, -, hstop⟩ := (h.parts_inOrder hx).2.of_mem
    (List.mem_cons_of_mem _ (List.mem_append_left _ (mem_childSpans hc)))
  exact ⟨hstart, hstop⟩

/-- Siblings follow each other. -/
theorem siblings (hc : (t.children id)[i]? = some c) (hd : (t.children id)[i + 1]? = some d) :
    (t.spanOf c).stop ≤ (t.spanOf d).start := by
  by_cases hid : id = root
  · subst hid
    exact siblings_of_inOrder h.rootChildren hc hd
  · obtain ⟨x, hx⟩ := h.exists_tags hid (Array.mem_of_getElem? hc)
    obtain ⟨-, -, hin⟩ := (h.parts_inOrder hx).2
    obtain ⟨mid, hin, -⟩ := InOrder.append_iff.1 hin
    exact siblings_of_inOrder hin hc hd

/-- The children of the root lie between the start of the first and the end of the last. -/
theorem rootChild_within {s : Span}
    (hfirst : ∀ c, (t.children root)[0]? = some c → s.start = (t.spanOf c).start)
    (hlast : ∀ c, (t.children root).back? = some c → s.stop = (t.spanOf c).stop)
    (hc : c ∈ t.children root) :
    s.start ≤ (t.spanOf c).start ∧ (t.spanOf c).stop ≤ s.stop := by
  obtain ⟨a, ha⟩ : ∃ a, (t.children root)[0]? = some a :=
    ⟨_, Array.getElem?_eq_getElem (Array.size_pos_of_mem hc)⟩
  obtain ⟨init, b, hb⟩ := Array.eq_push_of_size_ne_zero (Nat.ne_of_gt (Array.size_pos_of_mem hc))
  have hback : (t.children root).back? = some b := by rw [hb, Array.back?_push]
  have hin := h.rootChildren.tighten (a := t.spanOf a) (b := t.spanOf b)
    (by
      rw [childSpans, List.head?_map, List.head?_eq_getElem?, Array.getElem?_toList, ha]
      rfl)
    (by
      rw [childSpans, List.getLast?_map, Array.getLast?_toList, hback]
      rfl)
  obtain ⟨hstart, -, hstop⟩ := hin.of_mem (mem_childSpans hc)
  rw [hfirst a ha, hlast b hback]
  exact ⟨hstart, hstop⟩

end

/-- When no element is open, giving the root its place makes the ranges nest. -/
theorem rangesNest (h : NestedUpTo lo t [] floor) {f : Node → Node} {s : Span}
    (hf : ∀ n, (f n).extent.span = s)
    (hkeep : ∀ n, (f n).content = n.content ∧ (f n).parent = n.parent)
    (hempty : t.children root = #[] → s.start ≤ s.stop)
    (hfirst : ∀ c, (t.children root)[0]? = some c → s.start = (t.spanOf c).start)
    (hlast : ∀ c, (t.children root).back? = some c → s.stop = (t.spanOf c).stop) :
    (t.modify root f).RangesNest := by
  have hchildren : ∀ j, (t.modify root f).children j = t.children j := fun j =>
    children_modify fun n => by rw [Node.children, Node.children, (hkeep n).1]
  have htags : ∀ j, (t.modify root f).tagSpans? j = t.tagSpans? j := fun j =>
    tagSpans?_modify fun n => by rw [Node.element?, Node.element?, (hkeep n).1]
  have hparent : ∀ j, (t.modify root f).parent? j = t.parent? j := fun j =>
    parent?_modify fun n => (hkeep n).2
  have hothers : ∀ c, c ≠ root → (t.modify root f).spanOf c = t.spanOf c := by
    intro c hc
    rw [spanOf, spanOf, node?_modify_of_ne hc.symm]
  have hself : (t.modify root f).spanOf root = s := by
    obtain ⟨n, hn⟩ := exists_node (show root < t.size from h.linked.size)
    rw [spanOf_eq (node?_modify_self hn), hf]
  have hsize : (t.modify root f).size = t.size := size_modify ..
  generalize t.modify root f = t' at hchildren htags hparent hothers hself hsize
  exact {
    linked := h.linked.congr hsize hparent hchildren
    proper := fun id hid => by
      rw [hsize] at hid
      by_cases hroot : id = root
      · subst hroot
        rw [hself]
        by_cases hnil : t.children root = #[]
        · exact hempty hnil
        · obtain ⟨init, c, hc⟩ := Array.eq_push_of_size_ne_zero (mt Array.size_eq_zero_iff.1 hnil)
          have hmem : c ∈ t.children root := hc ▸ Array.mem_push_self
          obtain ⟨hstart, hstop⟩ := h.rootChild_within hfirst hlast hmem
          have hproper := (h.encloses (h.child_ne_root hmem) (h.linked.child _ c hmem).2.2).proper
          exact Nat.le_trans hstart (Nat.le_trans hproper hstop)
      · rw [hothers id hroot]
        exact (h.encloses hroot hid).proper
    inParent := fun id p hp => by
      rw [hparent] at hp
      have hlt : id < t.size := by
        obtain ⟨n, hn, -⟩ := Option.bind_eq_some_iff.1 hp
        exact lt_size hn
      have hid : id ≠ root := by
        rintro rfl
        rw [h.linked.root] at hp
        simp at hp
      obtain ⟨q, hq, hmem⟩ := h.linked.parent id (Nat.pos_of_ne_zero hid) hlt
      obtain rfl : p = q := Option.some.inj (hp.symm.trans hq)
      rw [Span.containsSpan_iff, hothers id hid]
      by_cases hroot : p = root
      · subst hroot
        rw [hself]
        exact h.rootChild_within hfirst hlast hmem
      · rw [hothers p hroot]
        exact h.child_within hroot hmem
    siblings := fun id i c d hc hd => by
      rw [hchildren] at hc hd
      rw [hothers c (h.child_ne_root (Array.mem_of_getElem? hc)),
        hothers d (h.child_ne_root (Array.mem_of_getElem? hd))]
      exact h.siblings hc hd
    startTag := fun id x hx => by
      obtain ⟨hid, hin⟩ := h.parts_inOrder ((htags id).symm.trans hx)
      obtain ⟨hstart, -, hstop⟩ := hin.of_mem (List.mem_cons_self ..)
      rw [Span.containsSpan_iff, hothers id hid]
      exact ⟨hstart, hstop⟩
    endTag := fun id x s' hx hs => by
      obtain ⟨hid, hin⟩ := h.parts_inOrder ((htags id).symm.trans hx)
      rw [hs, Option.toList_some, ← List.cons_append, InOrder.snoc_iff, InOrder.cons_iff] at hin
      obtain ⟨⟨h1, h2, h3⟩, -, h4⟩ := hin
      rw [Span.containsSpan_iff, hothers id hid]
      exact ⟨⟨Nat.le_trans h1 (Nat.le_trans h2 h3.le), h4⟩, h3.le⟩
    attributes := fun id x hx => h.attributes id x ((htags id).symm.trans hx)
    betweenTags := fun id x c hx hc => by
      rw [hchildren] at hc
      obtain ⟨-, -, hin⟩ := (h.parts_inOrder ((htags id).symm.trans hx)).2
      rw [hothers c (h.child_ne_root hc)]
      refine ⟨(hin.of_mem (List.mem_append_left _ (mem_childSpans hc))).1, fun s' hs' => ?_⟩
      rw [hs', Option.toList_some, InOrder.snoc_iff] at hin
      exact (hin.1.of_mem (mem_childSpans hc)).2.2
    root := by
      rw [hchildren, hself]
      refine ⟨fun c hc => ?_, fun c hc => ?_⟩
      · rw [hothers c (h.child_ne_root (Array.mem_of_getElem? hc))]
        exact hfirst c hc
      · rw [hothers c (h.child_ne_root (Array.mem_of_back? hc))]
        exact hlast c hc }

end NestedUpTo

end Tree
end TemplateSyntax
