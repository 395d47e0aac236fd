import TemplateSyntax.Proofs.TreeSpans

/-! # Ranges of a tree that grows

While a tree grows, the open elements are a chain from the root: each is the last child of the one
around it.  `NestedUpTo` says that the nodes outside of the chain enclose their parts, and that the
children of the nodes in the chain follow each other up to where the text was read.  The end of an
element is fixed when it leaves the chain. -/

namespace TemplateSyntax
namespace Tree

variable {t t' : Tree} {id j p c lo hi floor floor' : Nat} {content : NodeContent}
  {extent : Extent} {opened outer : List Nat}

/-- A node that stands in the text of a template: its parent has it as a child, and a child has its
parent.  Parents stand before their children. -/
structure Linked (t : Tree) : Prop where
  size : 0 < t.size
  root : t.parent? root = none
  parent : ∀ id, 0 < id → id < t.size → ∃ p, t.parent? id = some p ∧ id ∈ t.children p
  child : ∀ p c, c ∈ t.children p → t.parent? c = some p ∧ p < c ∧ c < t.size
  distinct : ∀ p, (t.children p).toList.Nodup

theorem Linked.congr (h : t.Linked) (hs : t'.size = t.size)
    (hp : ∀ j, t'.parent? j = t.parent? j) (hc : ∀ j, t'.children j = t.children j) :
    t'.Linked where
  size := hs ▸ h.size
  root := (hp Tree.root).trans h.root
  parent id hpos hlt := by
    obtain ⟨p, hpar, hmem⟩ := h.parent id hpos (hs ▸ hlt)
    exact ⟨p, (hp id).trans hpar, (hc p).symm ▸ hmem⟩
  child p c hmem := by
    rw [hp, hs]
    exact h.child p c (hc p ▸ hmem)
  distinct p := by
    rw [hc]
    exact h.distinct p

/-- Where the next node goes when these elements are open: the innermost one, or the root. -/
def tip (opened : List Nat) : Nat := opened.head?.getD root

/-- Each of the elements is the last child of the next one, and the last one of the root. -/
def Spine (t : Tree) : List Nat → Prop
  | [] => True
  | id :: outer => (t.children (tip outer)).back? = some id ∧ t.Spine outer

theorem Spine.congr (h : t.Spine opened) (hc : ∀ j, t'.children j = t.children j) :
    t'.Spine opened := by
  induction opened with
  | nil => trivial
  | cons id outer ih => exact ⟨(hc _).symm ▸ h.1, ih h.2⟩

theorem Spine.mem_children (h : t.Spine (id :: outer)) : id ∈ t.children (tip outer) :=
  Array.mem_of_back? h.1

/-- Going inward the elements of a chain stand later in the tree. -/
theorem Spine.lt (h : t.Spine (id :: outer)) (hl : t.Linked) :
    tip outer < id ∧ id < t.size ∧ ∀ j ∈ outer, j < id := by
  obtain ⟨-, htip, hsize⟩ := hl.child _ _ h.mem_children
  refine ⟨htip, hsize, ?_⟩
  induction outer generalizing id with
  | nil => simp
  | cons id' outer ih =>
    intro j hj
    obtain ⟨-, htip', hsize'⟩ := hl.child _ _ h.2.mem_children
    rcases List.mem_cons.1 hj with rfl | hj
    · exact htip
    · exact Nat.lt_trans (ih h.2 htip' hsize' j hj) htip

theorem Spine.lt_size (h : t.Spine opened) (hl : t.Linked) (hj : j ∈ opened) :
    0 < j ∧ j < t.size := by
  induction opened with
  | nil => simp at hj
  | cons id outer ih =>
    rcases List.mem_cons.1 hj with rfl | hj
    · obtain ⟨h1, h2, -⟩ := h.lt hl
      exact ⟨Nat.lt_of_le_of_lt (Nat.zero_le _) h1, h2⟩
    · exact ih h.2 hj

theorem Spine.nodup (h : t.Spine opened) (hl : t.Linked) : opened.Nodup := by
  induction opened with
  | nil => exact List.nodup_nil
  | cons id outer ih =>
    refine List.nodup_cons.2 ⟨fun hmem => ?_, ih h.2⟩
    exact Nat.lt_irrefl id ((h.lt hl).2.2 id hmem)

/-- The parts of a node, in order, lie in its span. -/
structure Encloses (t : Tree) (id : Nat) : Prop where
  proper : (t.spanOf id).start ≤ (t.spanOf id).stop
  parts : ∀ x, t.tagSpans? id = some x →
    InOrder (t.spanOf id).start (x.start :: (t.childSpans id ++ x.stop.toList)) (t.spanOf id).stop
  leaf : t.tagSpans? id = none → t.children id = #[]

/-- The open element ends with its start tag so far, and its children follow each other behind
that. -/
def OpenUpTo (t : Tree) (floor id : Nat) : Prop :=
  ∃ x, t.tagSpans? id = some x ∧ t.spanOf id = x.start ∧
    InOrder x.start.stop (t.childSpans id) floor

/-- The ranges of a tree with open elements nest up to `floor`. -/
structure NestedUpTo (lo : Nat) (t : Tree) (opened : List Nat) (floor : Nat) : Prop where
  linked : t.Linked
  rootHolds : t.canHold root = true ∧ t.tagSpans? root = none
  spine : t.Spine opened
  attributes : ∀ id x, t.tagSpans? id = some x → InOrder x.start.start x.attributes x.start.stop
  closed : ∀ id, 0 < id → id < t.size → id ∉ opened →
    t.Encloses id ∧ (t.spanOf id).stop ≤ floor
  openUpTo : ∀ id ∈ opened, t.OpenUpTo floor id
  rootChildren : InOrder lo (t.childSpans root) floor

/-! ## A node is added -/

theorem Linked.append (h : t.Linked) (hp : t.canHold p = true)
    (hc : (Node.mk content (some p) extent).children = #[]) :
    (t.append p content extent).Linked := by
  have hsize : (t.append p content extent).size = t.size + 1 := t.size_append p content extent
  have hlt : p < t.size := by
    rw [canHold, Option.any_eq_true] at hp
    obtain ⟨n, hn, -⟩ := hp
    exact Tree.lt_size hn
  have hself : (t.append p content extent).children t.size = #[] := by
    rw [children_eq (node?_append_self t p content extent), hc]
  have hchildren : ∀ j c, c ∈ (t.append p content extent).children j →
      c ∈ t.children j ∨ (j = p ∧ c = t.size) := by
    intro j c hmem
    by_cases hj : j = t.size
    · rw [hj, hself] at hmem
      simp at hmem
    · by_cases hpj : p = j
      · rw [← hpj, children_append_parent hp] at hmem
        rcases Array.mem_push.1 hmem with hmem | rfl
        · exact .inl (hpj ▸ hmem)
        · exact .inr ⟨hpj.symm, rfl⟩
      · rw [children_append_of_ne hj hpj] at hmem
        exact .inl hmem
  have hmono : ∀ j c, c ∈ t.children j → c ∈ (t.append p content extent).children j := by
    intro j c hmem
    obtain ⟨-, hjc, hcs⟩ := h.child j c hmem
    by_cases hpj : p = j
    · rw [← hpj, children_append_parent hp]
      exact Array.mem_push_of_mem _ (hpj ▸ hmem)
    · rw [children_append_of_ne (by omega) hpj]
      exact hmem
  refine ⟨by omega, ?_, fun id hpos hid => ?_, fun j c hmem => ?_, fun j => ?_⟩
  · exact (parent?_append (Nat.ne_of_lt h.size)).trans h.root
  · by_cases hnew : id = t.size
    · refine ⟨p, ?_, ?_⟩
      · rw [hnew, parent?, node?_append_self]
        rfl
      · rw [hnew, children_append_parent hp]
        exact Array.mem_push_self
    · obtain ⟨q, hq, hmem⟩ := h.parent id hpos (by omega)
      exact ⟨q, (parent?_append hnew).trans hq, hmono q id hmem⟩
  · rcases hchildren j c hmem with hmem | ⟨rfl, rfl⟩
    · obtain ⟨h1, h2, h3⟩ := h.child j c hmem
      exact ⟨(parent?_append (Nat.ne_of_lt h3)).trans h1, h2, by omega⟩
    · refine ⟨?_, hlt, by omega⟩
      rw [parent?, node?_append_self]
      rfl
  · by_cases hj : j = t.size
    · rw [hj, hself]
      exact List.nodup_nil
    · by_cases hpj : p = j
      · rw [← hpj, children_append_parent hp, Array.toList_push, List.nodup_append]
        refine ⟨h.distinct p, by simp, fun x hx y hy => ?_⟩
        obtain ⟨-, -, hxs⟩ := h.child p x (by simpa using hx)
        rw [List.mem_singleton.1 hy]
        exact Nat.ne_of_lt hxs
      · rw [children_append_of_ne hj hpj]
        exact h.distinct j

/-- A chain depends on the children of the elements around the innermost one. -/
theorem Spine.congr_below (h : t.Spine (id :: outer)) (hl : t.Linked)
    (hc : ∀ j, j < id → t'.children j = t.children j) : t'.Spine (id :: outer) := by
  induction outer generalizing id with
  | nil => exact ⟨(hc _ (h.lt hl).1).symm ▸ h.1, trivial⟩
  | cons id' outer ih =>
    have hlt : id' < id := (h.lt hl).1
    exact ⟨(hc _ hlt).symm ▸ h.1, ih h.2 fun j hj => hc j (Nat.lt_trans hj hlt)⟩

/-- The node that is added is the last child of the innermost element. -/
theorem Spine.append (h : t.Spine opened) (hl : t.Linked) (hp : t.canHold (tip opened) = true) :
    (t.append (tip opened) content extent).Spine (t.size :: opened) := by
  refine ⟨?_, ?_⟩
  · rw [children_append_parent hp, Array.back?_push]
  · cases opened with
    | nil => trivial
    | cons id outer =>
      obtain ⟨-, hsize, -⟩ := h.lt hl
      exact h.congr_below hl fun j hj =>
        children_append_of_ne (Nat.ne_of_lt (Nat.lt_trans hj hsize)) (Nat.ne_of_gt hj)

/-- The span of a new node is the last one below its parent, and nothing else changes. -/
theorem childSpans_append (hl : t.Linked) (hp : t.canHold p = true) (hj : j ≠ t.size) :
    (t.append p content extent).childSpans j =
      t.childSpans j ++ if p = j then [extent.span] else [] := by
  have hsame : (t.children j).toList.map (t.append p content extent).spanOf = t.childSpans j := by
    refine List.map_congr_left fun c hc => spanOf_append ?_
    exact Nat.ne_of_lt (hl.child j c (by simpa using hc)).2.2
  split
  · next hpj =>
    subst hpj
    rw [childSpans, children_append_parent hp, Array.toList_push, List.map_append, hsame,
      List.map_singleton, spanOf_eq (node?_append_self t p content extent)]
  · next hpj => rw [childSpans, children_append_of_ne hj hpj, hsame, List.append_nil]

namespace NestedUpTo

theorem raise (h : NestedUpTo lo t opened floor) (hf : floor ≤ floor') :
    NestedUpTo lo t opened floor' := by
  refine { h with closed := fun id h1 h2 h3 => ?_, openUpTo := fun id hid => ?_, rootChildren := ?_ }
  · obtain ⟨he, hle⟩ := h.closed id h1 h2 h3
    exact ⟨he, Nat.le_trans hle hf⟩
  · obtain ⟨x, hx, hs, hin⟩ := h.openUpTo id hid
    exact ⟨x, hx, hs, hin.mono (Nat.le_refl _) hf⟩
  · exact h.rootChildren.mono (Nat.le_refl _) hf

theorem canHold_tip (h : NestedUpTo lo t opened floor) : t.canHold (tip opened) = true := by
  cases opened with
  | nil => exact h.rootHolds.1
  | cons id outer =>
    obtain ⟨x, hx, -⟩ := h.openUpTo id (List.mem_cons_self ..)
    obtain ⟨e, he, -⟩ := Option.map_eq_some_iff.1 hx
    obtain ⟨n, hn, hne⟩ := Option.bind_eq_some_iff.1 he
    show (t.node? id).any Node.canHold = true
    rw [hn, Option.any_some, Node.canHold]
    unfold Node.element? at hne
    split at hne
    · next hc => rw [hc]
    · simp at hne

/-- A node is added behind the others.  It is closed, or the innermost open element. -/
theorem append (h : NestedUpTo lo t opened floor) (hf : floor ≤ extent.span.start)
    (hle : extent.span.start ≤ extent.span.stop)
    (hc : (Node.mk content (some (tip opened)) extent).children = #[])
    (hattr : ∀ x, (t.append (tip opened) content extent).tagSpans? t.size = some x →
      InOrder x.start.start x.attributes x.start.stop) :
    ((t.append (tip opened) content extent).Encloses t.size →
      NestedUpTo lo (t.append (tip opened) content extent) opened extent.span.stop) ∧
    ((t.append (tip opened) content extent).OpenUpTo extent.span.stop t.size →
      NestedUpTo lo (t.append (tip opened) content extent) (t.size :: opened)
        extent.span.stop) := by
  have hp := h.canHold_tip
  have hroot : root ≠ t.size := Nat.ne_of_lt h.linked.size
  have hsize : (t.append (tip opened) content extent).size = t.size + 1 :=
    t.size_append _ content extent
  have hspan : (t.append (tip opened) content extent).spanOf t.size = extent.span :=
    spanOf_eq (node?_append_self t _ content extent)
  have hspine : (t.append (tip opened) content extent).Spine (t.size :: opened) :=
    h.spine.append h.linked hp
  -- the children of a node in the chain go on with the new one, or stay as they are
  have hin : ∀ start j, j ≠ t.size → InOrder start (t.childSpans j) floor →
      InOrder start ((t.append (tip opened) content extent).childSpans j) extent.span.stop := by
    intro start j hj hin
    rw [childSpans_append h.linked hp hj]
    split
    · rw [InOrder.snoc_iff]
      exact ⟨hin.mono (Nat.le_refl _) hf, hle, Nat.le_refl _⟩
    · rw [List.append_nil]
      exact hin.mono (Nat.le_refl _) (Nat.le_trans hf hle)
  have hopen : ∀ id ∈ opened,
      (t.append (tip opened) content extent).OpenUpTo extent.span.stop id := by
    intro id hid
    obtain ⟨x, hx, hs, ho⟩ := h.openUpTo id hid
    have hne : id ≠ t.size := Nat.ne_of_lt (h.spine.lt_size h.linked hid).2
    exact ⟨x, (tagSpans?_append hne).trans hx, (spanOf_append hne).trans hs, hin _ id hne ho⟩
  have hclosed : ∀ id, 0 < id → id < t.size → id ∉ opened →
      (t.append (tip opened) content extent).Encloses id ∧
        ((t.append (tip opened) content extent).spanOf id).stop ≤ extent.span.stop := by
    intro id h1 h2 h3
    obtain ⟨he, hstop⟩ := h.closed id h1 h2 h3
    have hne : id ≠ t.size := Nat.ne_of_lt h2
    have htip : tip opened ≠ id := by
      cases opened with
      | nil => exact Nat.ne_of_lt h1
      | cons id' outer => exact fun heq => h3 (heq ▸ List.mem_cons_self ..)
    have hspans : (t.append (tip opened) content extent).childSpans id = t.childSpans id := by
      rw [childSpans_append h.linked hp hne, if_neg htip, List.append_nil]
    refine ⟨⟨?_, fun x hx => ?_, fun hx => ?_⟩, ?_⟩
    · rw [spanOf_append hne]
      exact he.proper
    · rw [spanOf_append hne, hspans]
      exact he.parts x ((tagSpans?_append hne).symm.trans hx)
    · rw [children_append_of_ne hne htip]
      exact he.leaf ((tagSpans?_append hne).symm.trans hx)
    · rw [spanOf_append hne]
      exact Nat.le_trans hstop (Nat.le_trans hf hle)
  have hattrs : ∀ id x, (t.append (tip opened) content extent).tagSpans? id = some x →
      InOrder x.start.start x.attributes x.start.stop := by
    intro id x hx
    by_cases hid : id = t.size
    · exact hattr x (hid ▸ hx)
    · exact h.attributes id x ((tagSpans?_append hid).symm.trans hx)
  have hholds : (t.append (tip opened) content extent).canHold root = true ∧
      (t.append (tip opened) content extent).tagSpans? root = none :=
    ⟨(canHold_append hroot).trans h.rootHolds.1, (tagSpans?_append hroot).trans h.rootHolds.2⟩
  refine ⟨fun hnew => ?_, fun hnew => ?_⟩
  · refine ⟨h.linked.append hp hc, hholds, hspine.2, hattrs, fun id h1 h2 h3 => ?_, hopen,
      hin lo root hroot h.rootChildren⟩
    by_cases hid : id = t.size
    · subst hid
      exact ⟨hnew, Nat.le_of_eq (congrArg Span.stop hspan)⟩
    · exact hclosed id h1 (by omega) h3
  · refine ⟨h.linked.append hp hc, hholds, hspine, hattrs, fun id h1 h2 h3 => ?_, fun id hid => ?_,
      hin lo root hroot h.rootChildren⟩
    · rw [List.mem_cons, not_or] at h3
      exact hclosed id h1 (by omega) h3.2
    · rcases List.mem_cons.1 hid with rfl | hid
      · exact hnew
      · exact hopen id hid

/-- A node without children that is no element is added. -/
theorem append_leaf (h : NestedUpTo lo t opened floor) (hf : floor ≤ extent.span.start)
    (hle : extent.span.start ≤ extent.span.stop)
    (hc : (Node.mk content (some (tip opened)) extent).children = #[])
    (he : (Node.mk content (some (tip opened)) extent).element? = none) :
    NestedUpTo lo (t.append (tip opened) content extent) opened extent.span.stop := by
  have hself := node?_append_self t (tip opened) content extent
  have hno : (t.append (tip opened) content extent).tagSpans? t.size = none := by
    rw [tagSpans?, element?_eq hself, he]
    rfl
  refine (h.append hf hle hc (by simp [hno])).1 ⟨?_, by simp [hno], fun _ => ?_⟩
  · rw [spanOf_eq hself]
    exact hle
  · rw [children_eq hself]
    exact hc

/-- An element is added, which is open. -/
theorem append_element {e : Element} (h : NestedUpTo lo t opened floor)
    (hf : floor ≤ e.startTag.span.start) (hc : e.children = #[])
    (hattr : InOrder e.startTag.span.start e.tagSpans.attributes e.startTag.span.stop) :
    NestedUpTo lo (t.append (tip opened) (.element e) e.startTag) (t.size :: opened)
      e.startTag.span.stop := by
  have hself := node?_append_self t (tip opened) (.element e) e.startTag
  have htags : (t.append (tip opened) (.element e) e.startTag).tagSpans? t.size =
      some e.tagSpans := by
    rw [tagSpans?, element?_eq hself]
    rfl
  refine (@append t lo floor (.element e) e.startTag opened h hf hattr.le hc fun x hx => ?_).2
    ⟨e.tagSpans, htags, spanOf_eq hself, ?_⟩
  · obtain rfl := Option.some.inj (htags.symm.trans hx)
    exact hattr
  · rw [childSpans, children_eq hself]
    simp [Node.children, hc, Element.tagSpans]

/-! ## An element is closed -/

section
variable {f : Node → Node} {stop : Nat} (hf : ∀ n, (f n).extent.span = n.extent.span.withStop stop)
  (hkeep : ∀ n, (f n).content = n.content ∧ (f n).parent = n.parent)
include hf hkeep

/-- A new end changes the last span below the parent. -/
theorem childSpans_close (h : NestedUpTo lo t (id :: outer) floor) :
    (∀ j, tip outer ≠ j → (t.modify id f).childSpans j = t.childSpans j) ∧
      ∃ ss, t.childSpans (tip outer) = ss ++ [t.spanOf id] ∧
        (t.modify id f).childSpans (tip outer) = ss ++ [(t.spanOf id).withStop stop] := by
  have hchildren : ∀ j, (t.modify id f).children j = t.children j := fun j =>
    children_modify fun n => by rw [Node.children, Node.children, (hkeep n).1]
  have hothers : ∀ c, id ≠ c → (t.modify id f).spanOf c = t.spanOf c := by
    intro c hc
    rw [spanOf, spanOf, node?_modify_of_ne hc]
  have hparent := (h.linked.child _ _ h.spine.mem_children).1
  obtain ⟨-, hlt, -⟩ := h.spine.lt h.linked
  obtain ⟨n, hn⟩ := exists_node hlt
  have hself : (t.modify id f).spanOf id = (t.spanOf id).withStop stop := by
    rw [spanOf_eq (node?_modify_self hn), spanOf_eq hn, hf]
  refine ⟨fun j hj => ?_, ?_⟩
  · rw [childSpans, hchildren]
    refine List.map_congr_left fun c hc => hothers c ?_
    rintro rfl
    exact hj (Option.some.inj (hparent.symm.trans (h.linked.child j id (by simpa using hc)).1))
  · obtain ⟨init, hinit⟩ : ∃ init, t.children (tip outer) = Array.push init id :=
      Array.back?_eq_some_iff.1 h.spine.1
    have hnot : id ∉ init := by
      have hnd := h.linked.distinct (tip outer)
      rw [hinit, Array.toList_push, List.nodup_append] at hnd
      intro hmem
      exact hnd.2.2 id (by simpa using hmem) id (by simp) rfl
    refine ⟨init.toList.map t.spanOf, ?_, ?_⟩
    · rw [childSpans, hinit, Array.toList_push, List.map_append, List.map_singleton]
    · rw [childSpans, hchildren, hinit, Array.toList_push, List.map_append, List.map_singleton,
        hself]
      refine congrArg (· ++ _) (List.map_congr_left fun c hc => hothers c ?_)
      rintro rfl
      exact hnot (by simpa using hc)

/-- The innermost element gets an end behind all its parts, and is closed. -/
theorem close (h : NestedUpTo lo t (id :: outer) floor) {x : TagSpans}
    (hx : t.tagSpans? id = some x)
    (hin : InOrder x.start.stop (t.childSpans id ++ x.stop.toList) stop)
    (hfloor : floor ≤ floor') (hstop : stop ≤ floor') :
    NestedUpTo lo (t.modify id f) outer floor' := by
  obtain ⟨hsame, ss, hold, hnew⟩ := h.childSpans_close hf hkeep
  obtain ⟨htip, hlt, houter⟩ := h.spine.lt h.linked
  obtain ⟨n, hn⟩ := exists_node hlt
  have hchildren : ∀ j, (t.modify id f).children j = t.children j := fun j =>
    children_modify fun n => by rw [Node.children, Node.children, (hkeep n).1]
  have htags : ∀ j, (t.modify id f).tagSpans? j = t.tagSpans? j := fun j =>
    tagSpans?_modify fun n => by rw [Node.element?, Node.element?, (hkeep n).1]
  have hself : (t.modify id f).spanOf id = (t.spanOf id).withStop stop := by
    rw [spanOf_eq (node?_modify_self hn), spanOf_eq hn, hf]
  have hothers : ∀ c, id ≠ c → (t.modify id f).spanOf c = t.spanOf c := by
    intro c hc
    rw [spanOf, spanOf, node?_modify_of_ne hc]
  -- the element ended with its start tag so far
  obtain ⟨y, hy, hspan, -⟩ := h.openUpTo id (List.mem_cons_self ..)
  obtain rfl : y = x := Option.some.inj (hy.symm.trans hx)
  have hproper : y.start.start ≤ y.start.stop := (h.attributes id y hx).le
  have hle : (t.spanOf id).start ≤ stop := by
    rw [hspan]
    exact Nat.le_trans hproper hin.le
  have hends : ∀ start j, InOrder start (t.childSpans j) floor →
      InOrder start ((t.modify id f).childSpans j) floor' := by
    intro start j hj
    by_cases htj : tip outer = j
    · rw [← htj, hold, InOrder.snoc_iff] at hj
      rw [← htj, hnew, InOrder.snoc_iff]
      exact ⟨hj.1, hle, hstop⟩
    · rw [hsame j htj]
      exact hj.mono (Nat.le_refl _) hfloor
  refine ⟨h.linked.congr (size_modify ..) (fun j => parent?_modify fun n => (hkeep n).2) hchildren,
    ⟨?_, (htags root).trans h.rootHolds.2⟩, h.spine.2.congr hchildren, fun j z hz => ?_,
    fun j h1 h2 h3 => ?_, fun j hj => ?_, hends lo root h.rootChildren⟩
  · have hroot : id ≠ root := by
      rintro rfl
      exact absurd htip (Nat.not_lt_zero _)
    rw [canHold, node?_modify_of_ne hroot]
    exact h.rootHolds.1
  · exact h.attributes j z ((htags j).symm.trans hz)
  · rw [size_modify] at h2
    by_cases hj : id = j
    · subst hj
      have hspans := hsame id (Nat.ne_of_lt htip)
      refine ⟨⟨?_, fun z hz => ?_, fun hz => ?_⟩, ?_⟩
      · rw [hself]
        exact hle
      · obtain rfl : z = y := Option.some.inj (((htags id).symm.trans hz).symm.trans hx)
        rw [hself, hspans, InOrder.cons_iff, hspan]
        exact ⟨Nat.le_refl _, hproper, hin⟩
      · rw [htags, hx] at hz
        simp at hz
      · rw [hself]
        exact hstop
    · have hno : j ∉ id :: outer := by
        rw [List.mem_cons, not_or]
        exact ⟨fun heq => hj heq.symm, h3⟩
      have htj : tip outer ≠ j := by
        cases outer with
        | nil => exact Nat.ne_of_lt h1
        | cons id' outer => exact fun heq => h3 (heq ▸ List.mem_cons_self ..)
      obtain ⟨he, hend⟩ := h.closed j h1 h2 hno
      refine ⟨⟨?_, fun z hz => ?_, fun hz => ?_⟩, ?_⟩
      · rw [hothers j hj]
        exact he.proper
      · rw [hothers j hj, hsame j htj]
        exact he.parts z ((htags j).symm.trans hz)
      · rw [hchildren]
        exact he.leaf ((htags j).symm.trans hz)
      · rw [hothers j hj]
        exact Nat.le_trans hend hfloor
  · obtain ⟨z, hz, hs, hin'⟩ := h.openUpTo j (List.mem_cons_of_mem _ hj)
    have hne : id ≠ j := Nat.ne_of_gt (houter j hj)
    exact ⟨z, (htags j).trans hz, (hothers j hne).trans hs, hends _ j hin'⟩

end

/-- An open element can get an end tag. -/
theorem setEndTag (h : NestedUpTo lo t opened floor) (hid : id ∈ opened) (tag : Extent) :
    NestedUpTo lo (t.modifyElement id fun e => { e with endTag := some tag }) opened floor := by
  have hspan : ∀ j, (t.modifyElement id fun e => { e with endTag := some tag }).spanOf j =
      t.spanOf j := fun j => spanOf_modify fun n => by
    unfold Node.mapElement
    split <;> rfl
  have hchildren : ∀ j, (t.modifyElement id fun e => { e with endTag := some tag }).children j =
      t.children j := fun j => children_modify fun n => by
    unfold Node.mapElement
    split
    · next hc => simp [Node.children, hc]
    · rfl
  have hspans : ∀ j, (t.modifyElement id fun e => { e with endTag := some tag }).childSpans j =
      t.childSpans j := fun j => by
    rw [childSpans, childSpans, hchildren]
    exact List.map_congr_left fun c _ => hspan c
  have htags : ∀ j, j ≠ id →
      (t.modifyElement id fun e => { e with endTag := some tag }).tagSpans? j = t.tagSpans? j :=
    fun j hj => by rw [tagSpans?_setEndTag, if_neg hj.symm]
  obtain ⟨x, hx, hopen⟩ := h.openUpTo id hid
  have hself : (t.modifyElement id fun e => { e with endTag := some tag }).tagSpans? id =
      some { x with stop := some tag.span } := by
    rw [tagSpans?_setEndTag, if_pos rfl, hx, Option.map_some]
  refine ⟨h.linked.congr (size_modify ..) (fun j => parent?_modify fun n => ?_) hchildren, ?_,
    h.spine.congr hchildren, fun j y hy => ?_, fun j h1 h2 h3 => ?_, fun j hj => ?_,
    hspans root ▸ h.rootChildren⟩
  · unfold Node.mapElement
    split <;> rfl
  · have hroot : id ≠ root := Nat.ne_of_gt (h.spine.lt_size h.linked hid).1
    rw [canHold, modifyElement, node?_modify_of_ne hroot]
    exact ⟨h.rootHolds.1, (htags root hroot.symm).trans h.rootHolds.2⟩
  · by_cases hj : j = id
    · subst hj
      obtain rfl := Option.some.inj (hself.symm.trans hy)
      exact h.attributes j x hx
    · exact h.attributes j y ((htags j hj).symm.trans hy)
  · have hj : j ≠ id := fun heq => h3 (heq ▸ hid)
    obtain ⟨he, hstop⟩ := h.closed j h1 (size_modify .. ▸ h2) h3
    refine ⟨⟨?_, fun y hy => ?_, fun hy => ?_⟩, ?_⟩
    · rw [hspan]
      exact he.proper
    · rw [hspan, hspans]
      exact he.parts y ((htags j hj).symm.trans hy)
    · rw [hchildren]
      exact he.leaf ((htags j hj).symm.trans hy)
    · rw [hspan]
      exact hstop
  · by_cases hjid : j = id
    · subst hjid
      refine ⟨_, hself, ?_, ?_⟩
      · rw [hspan]
        exact hopen.1
      · rw [hspans]
        exact hopen.2
    · obtain ⟨y, hy, hs, hin⟩ := h.openUpTo j hj
      refine ⟨y, (htags j hjid).trans hy, ?_, ?_⟩
      · rw [hspan]
        exact hs
      · rw [hspans]
        exact hin

end NestedUpTo

end Tree
end TemplateSyntax
