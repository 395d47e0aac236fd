import Mathlib.Data.List.Nodup
import TemplateSyntax.Proofs.UnitRun

/-! # End tags

An end tag closes the innermost open element of its name, with all that are open inside it, and if there
is none it is refused.  So nothing of the end tags is lost and nothing is used twice: over a whole
template there are as many of them as elements with an end tag and end tags that were refused together.
The invariant is a `Census`, which ties the elements of the tree to the units that were taken so far. -/

namespace TemplateSyntax

namespace MarkupUnit

/-- Whether the unit is an end tag. -/
def isEndTag : MarkupUnit → Bool
  | endTag _ => true
  | _ => false

/-- Whether the unit is a start tag. -/
def isStartTag : MarkupUnit → Bool
  | startTag _ => true
  | _ => false

end MarkupUnit

theorem Cause.isInvalidEndTag_of_isSyntactic {cause : Cause} (h : cause.isSyntactic = true) :
    cause.isInvalidEndTag = false := by
  cases cause with
  | invalidEndTag name => exact absurd h Bool.false_ne_true
  | _ => rfl

namespace Tree

variable {t t' : Tree} {id j p : Nat} {content : NodeContent} {extent x : Extent}

/-- The end tag of an element. -/
def endTag? (t : Tree) (id : Nat) : Option Extent := (t.element? id).bind Element.endTag

/-- The elements, in the order of the text. -/
def elements (t : Tree) : List Element := (List.range t.size).filterMap t.element?

theorem endTag?_eq_shell (t : Tree) (id : Nat) : t.endTag? id = (t.shell? id).bind Element.endTag := by
  rw [endTag?, shell?]
  cases t.element? id <;> rfl

theorem length_elements (t : Tree) :
    t.elements.length = (List.range t.size).countP fun id => (t.shell? id).isSome := by
  rw [elements, List.length_filterMap_eq_countP]
  simp only [shell?, Option.isSome_map]

theorem SameNodes.endTag? (h : t.SameNodes t') (id : Nat) : t'.endTag? id = t.endTag? id := by
  rw [Tree.endTag?, h.element?]
  rfl

theorem SameNodes.length_elements (h : t.SameNodes t') : t'.elements.length = t.elements.length := by
  rw [Tree.length_elements, Tree.length_elements, h.size]
  simp only [shell?, h.element?]

/-- What of an element a new node in it does not change. -/
theorem element?_append {α : Type} (f : Element → α) (hj : j ≠ t.size)
    (hf : ∀ e : Element, ∀ children, f { e with children } = f e) :
    ((t.append p content extent).element? j).map f = (t.element? j).map f := by
  have hjoin : ∀ t : Tree, (t.element? j).map f =
      ((t.node? j).map fun n => n.element?.map f).join := by
    intro t
    rw [element?]
    cases t.node? j <;> rfl
  rw [hjoin, hjoin, node?_append hj, map_node?_modify]
  rintro ⟨content, parent, extent⟩ -
  cases content with
  | element e => exact congrArg some (hf e _)
  | root _ | text _ | mustache _ => rfl

theorem endTag?_eq_join (t : Tree) (id : Nat) :
    t.endTag? id = ((t.element? id).map Element.endTag).join := by
  rw [endTag?]
  cases t.element? id <;> rfl

theorem element?_append_self :
    (t.append p content extent).element? t.size = (Node.mk content (some p) extent).element? :=
  element?_eq (node?_append_self ..)

theorem element?_size (t : Tree) : t.element? t.size = none := by
  rw [element?, node?, size, Array.getElem?_size, Option.bind_none]

/-- A node that is added has no end tag. -/
theorem endTag?_append (hnew : ∀ e, content = .element e → e.endTag = none) (j : Nat) :
    (t.append p content extent).endTag? j = t.endTag? j := by
  by_cases hj : j = t.size
  · subst hj
    rw [endTag?, endTag?, element?_append_self, element?_size]
    cases content with
    | element e => exact hnew e rfl
    | root _ | text _ | mustache _ => rfl
  · rw [endTag?_eq_join, endTag?_eq_join]
    exact congrArg Option.join (element?_append Element.endTag hj fun _ _ => rfl)

theorem endTag?_setEndTag (t : Tree) (id j : Nat) (tag : Extent) :
    (t.modifyElement id fun e => { e with endTag := some tag }).endTag? j =
      if id = j then (t.element? j).map fun _ => tag else t.endTag? j := by
  rw [endTag?, element?_modifyElement]
  split
  · cases t.element? j <;> rfl
  · rfl

theorem length_elements_append : (t.append p content extent).elements.length =
    t.elements.length + if (Node.mk content (some p) extent).element?.isSome then 1 else 0 := by
  have hold : ∀ j ∈ List.range t.size,
      ((t.append p content extent).shell? j).isSome = (t.shell? j).isSome := by
    intro j hj
    have hmap : ((t.append p content extent).element? j).map (fun _ => ()) =
        (t.element? j).map fun _ => () :=
      element?_append _ (Nat.ne_of_lt (List.mem_range.1 hj)) fun _ _ => rfl
    simpa [shell?] using congrArg Option.isSome hmap
  rw [length_elements, length_elements, size_append, List.range_succ, List.countP_append,
    List.countP_congr fun j hj => by rw [hold j hj], List.countP_singleton, shell?,
    element?_append_self, Option.isSome_map]

/-! ## Leaves -/

/-- Leaves are closed by their start tags: they have no end tag and no children. -/
def Leaves (t : Tree) (opened : List Nat) : Prop :=
  ∀ id e, t.element? id = some e → e.isLeaf = true →
    e.endTag = none ∧ e.children = #[] ∧ id ∉ opened

namespace Leaves

variable {opened outer : List Nat}

theorem congr (h : t.Leaves opened) (hs : t.SameNodes t') : t'.Leaves opened := fun id e he =>
  h id e ((hs.element? id).symm.trans he)

theorem mono (h : t.Leaves opened) (ho : ∀ id ∈ outer, id ∈ opened) : t.Leaves outer :=
  fun id e he hleaf => by
    obtain ⟨hend, hchildren, hout⟩ := h id e he hleaf
    exact ⟨hend, hchildren, fun hid => hout (ho id hid)⟩

/-- A node is added to what is open, so not to a leaf. -/
theorem append (h : t.Leaves opened) (hl : t.Laid opened)
    (hnew : ∀ e, content = .element e → e.endTag = none ∧ e.children = #[]) :
    (t.append (tip opened) content extent).Leaves opened := by
  intro id e he hleaf
  by_cases hid : id = t.size
  · subst hid
    have hout : t.size ∉ opened := fun hin => Nat.lt_irrefl _ (hl.spine.lt_size hl.linked hin).2
    rw [element?_append_self] at he
    cases content with
    | element e' =>
      obtain rfl := Option.some.inj he
      obtain ⟨hend, hchildren⟩ := hnew _ rfl
      exact ⟨hend, hchildren, hout⟩
    | root _ | text _ | mustache _ => cases he
  · by_cases htip : tip opened = id
    · -- the node that gets the new one is the root or is open
      have hmap : ((t.append (tip opened) content extent).element? id).map Element.isLeaf =
          (t.element? id).map Element.isLeaf := element?_append _ hid fun _ _ => rfl
      rw [he, Option.map_some] at hmap
      obtain ⟨e', he', hsame⟩ := Option.map_eq_some_iff.1 hmap.symm
      cases opened with
      | nil =>
        have hroot := hl.root.2
        rw [label?, show t.element? root = some e' from (congrArg _ htip).trans he'] at hroot
        cases hroot
      | cons i outer =>
        obtain ⟨-, -, hout⟩ := h id e' he' (hsame.trans hleaf)
        exact absurd (htip ▸ List.mem_cons_self ..) hout
    · rw [element?, node?_append_of_ne hid htip] at he
      exact h id e he hleaf

/-- An element that is no leaf is opened. -/
theorem push (h : t.Leaves opened) {e : Element} (he : t.element? id = some e)
    (hleaf : e.isLeaf = false) : t.Leaves (id :: opened) := by
  intro j e' he' hleaf'
  obtain ⟨hend, hchildren, hout⟩ := h j e' he' hleaf'
  refine ⟨hend, hchildren, List.not_mem_cons_of_ne_of_not_mem ?_ hout⟩
  rintro rfl
  obtain rfl := Option.some.inj (he.symm.trans he')
  rw [hleaf] at hleaf'
  cases hleaf'

/-- An end tag goes to an element that is open. -/
theorem setEndTag (h : t.Leaves opened) (hid : id ∈ opened) (tag : Extent) :
    (t.modifyElement id fun e => { e with endTag := some tag }).Leaves opened := by
  intro j e he hleaf
  rw [element?_modifyElement] at he
  split at he
  · next heq =>
    subst heq
    obtain ⟨e', he', rfl⟩ := Option.map_eq_some_iff.1 he
    obtain ⟨-, -, hout⟩ := h id e' he' hleaf
    exact absurd hid hout
  · exact h j e he hleaf

end Leaves
end Tree

/-! ## The census -/

namespace Builder

open TemplateSyntax.Tree (tip)

variable {b b' : Builder} {ms ms' : List (Builder × MarkupUnit)} {u : MarkupUnit} {id j : Nat}
  {inner outer : List Nat} {tag : EndTag}

/-- The element that an end tag closes, and where the end tag is. -/
def closing? : Builder × MarkupUnit → Option (Nat × Extent)
  | (b, .endTag tag) => (b.opened.find? (b.closes tag.rawName)).map fun id => (id, tag.extent)
  | _ => none

/-- Whether the unit is an end tag that fits no open element. -/
def isRefused : Builder × MarkupUnit → Bool
  | (b, .endTag tag) => (b.opened.find? (b.closes tag.rawName)).isNone
  | _ => false

/-- How the elements come from the units that were taken. -/
structure Census (ms : List (Builder × MarkupUnit)) (b : Builder) : Prop where
  laid : b.Laid
  leaves : b.tree.Leaves b.opened
  elements : b.tree.elements.length = ms.countP fun m => m.2.isStartTag
  ended : ∀ id x, b.tree.endTag? id = some x ↔ (id, x) ∈ ms.filterMap closing?
  once : ((ms.filterMap closing?).map Prod.fst).Nodup
  refused : b.refusals.length = ms.countP isRefused

/-- An end tag closes an element or is refused. -/
theorem countP_isEndTag (ms : List (Builder × MarkupUnit)) :
    (ms.countP fun m => m.2.isEndTag) = (ms.filterMap closing?).length + ms.countP isRefused := by
  induction ms with
  | nil => rfl
  | cons m ms ih =>
    obtain ⟨b, u⟩ := m
    rw [List.countP_cons, List.countP_cons, List.filterMap_cons, ih]
    cases u with
    | endTag tag =>
      cases hfind : b.opened.find? (b.closes tag.rawName) with
      | none => simp [closing?, isRefused, hfind, MarkupUnit.isEndTag]; omega
      | some id => simp [closing?, isRefused, hfind, MarkupUnit.isEndTag]; omega
    | startTag _ | text _ | mustache _ => rfl

/-- An element that is open has no end tag. -/
theorem Laid.endTag?_of_mem (h : b.Laid) (hid : id ∈ b.opened) :
    ∃ e, b.tree.element? id = some e ∧ e.endTag = none := by
  obtain ⟨x, hx, hended, -⟩ := Tree.Laid.opens h id hid
  obtain ⟨e, he, rfl⟩ := Option.map_eq_some_iff.1 hx
  exact ⟨e, he, by simpa [Element.label] using hended⟩

namespace Census

theorem withLog (h : b.Census ms) (log : Array LogEntry) : (b.withLog log).Census ms :=
  { h with }

/-- A node is added for a unit that is no end tag. -/
theorem grow (h : b.Census ms) {p : Nat} {content : NodeContent} {extent : Extent}
    (hlaid : b'.Laid) (hleaves : b'.tree.Leaves b'.opened)
    (hnodes : (b.tree.append p content extent).SameNodes b'.tree)
    (hnew : ∀ e, content = .element e → e.endTag = none) (hrefusals : b'.refusals = b.refusals)
    (hu : u.isEndTag = false)
    (hstart : u.isStartTag = (Node.mk content (some p) extent).element?.isSome) :
    b'.Census (ms ++ [(b, u)]) := by
  have hclosing : closing? (b, u) = none := by cases u <;> first | rfl | cases hu
  have hrefused : isRefused (b, u) = false := by cases u <;> first | rfl | cases hu
  have hclosings : (ms ++ [(b, u)]).filterMap closing? = ms.filterMap closing? := by
    rw [List.filterMap_append, List.filterMap_cons_none hclosing, List.filterMap_nil,
      List.append_nil]
  refine ⟨hlaid, hleaves, ?_, fun j x => ?_, hclosings ▸ h.once, ?_⟩
  · rw [hnodes.length_elements, Tree.length_elements_append, h.elements, List.countP_append,
      List.countP_singleton, hstart]
  · rw [hnodes.endTag?, Tree.endTag?_append hnew, hclosings]
    exact h.ended j x
  · rw [hrefusals, h.refused, List.countP_append, List.countP_singleton, hrefused]
    rfl

theorem onStartTag (h : b.Census ms) (tag : StartTag) :
    (b.onStartTag tag).Census (ms ++ [(b, .startTag tag)]) := by
  obtain ⟨e, outer, hadds, hrefusals⟩ := b.onStartTag_adds tag
  have hsub : ∀ j ∈ outer, j ∈ b.opened := by
    rcases hadds.closes with rfl | ⟨id, ho⟩
    · exact fun j hj => hj
    · exact fun j hj => ho ▸ List.mem_cons_of_mem id hj
  have hlaid : b.tree.Laid outer := by
    rcases hadds.closes with rfl | ⟨id, ho⟩
    · exact h.laid
    · have hopen : b.tree.Laid (id :: outer) := ho ▸ h.laid
      exact hopen.pop
  have hnew : ∀ e', NodeContent.element e = .element e' → e'.endTag = none ∧ e'.children = #[] := by
    rintro _ ⟨⟩
    exact ⟨hadds.endTag, hadds.children⟩
  have hleaves : (b.onStartTag tag).tree.Leaves outer :=
    ((h.leaves.mono hsub).append hlaid hnew).congr hadds.nodes
  refine h.grow (h.laid.onStartTag tag) ?_ hadds.nodes (fun e' he' => (hnew e' he').1) hrefusals rfl rfl
  have hthere : (b.onStartTag tag).tree.element? b.tree.size = some e := by
    rw [hadds.nodes.element?, Tree.element?_append_self]
    rfl
  rw [hadds.opened]
  cases hleaf : e.isLeaf with
  | true => exact hleaves
  | false => exact hleaves.push hthere hleaf

/-- A text or a mustache is added. -/
theorem addLeaf (h : b.Census ms) {content : NodeContent} {extent : Extent}
    (hc : (Node.mk content (some b.current) extent).children = #[])
    (hleaf : ∀ e, content ≠ .element e) (hu : u.isEndTag = false) (hs : u.isStartTag = false) :
    (b.addNode content extent).Census (ms ++ [(b, u)]) := by
  have hnew : ∀ e, content = .element e → e.endTag = none ∧ e.children = #[] :=
    fun e he => absurd he (hleaf e)
  refine h.grow (h.laid.addLeaf hc hleaf) (h.leaves.append h.laid hnew) (.refl _)
    (fun e he => (hnew e he).1) rfl hu (hs.trans ?_)
  cases content with
  | element e => exact absurd rfl (hleaf e)
  | root _ | text _ | mustache _ => rfl

/-- The end tag closes an element, which had none before. -/
theorem onEndTag_closes (h : b.Census ms) (ho : b.opened = inner ++ id :: outer)
    (hid : b.closes tag.rawName id = true) (hinner : ∀ j ∈ inner, b.closes tag.rawName j = false) :
    (b.onEndTag tag).Census (ms ++ [(b, .endTag tag)]) := by
  have hends := onEndTag_ends ho hid hinner
  have hmem : id ∈ b.opened := ho ▸ List.mem_append_right _ (List.mem_cons_self ..)
  have hfind : b.opened.find? (b.closes tag.rawName) = some id := by
    rw [ho, List.find?_append, List.find?_eq_none.2 fun j hj => by simp [hinner j hj]]
    exact List.find?_cons_of_pos hid
  have hclosings : (ms ++ [(b, MarkupUnit.endTag tag)]).filterMap closing? =
      ms.filterMap closing? ++ [(id, tag.extent)] := by
    simp [closing?, hfind]
  obtain ⟨e, he, hnone⟩ := h.laid.endTag?_of_mem hmem
  have hfresh : ∀ x, (id, x) ∉ ms.filterMap closing? := fun x hx => by
    have hended := (h.ended id x).2 hx
    rw [Tree.endTag?, he, Option.bind_some, hnone] at hended
    cases hended
  refine ⟨h.laid.onEndTag tag, ?_, ?_, fun j x => ?_, ?_, ?_⟩
  · refine Tree.Leaves.congr ?_ hends.nodes
    rw [hends.opened]
    exact (h.leaves.setEndTag hmem _).mono fun j hj =>
      ho ▸ List.mem_append_right _ (List.mem_cons_of_mem id hj)
  · rw [hends.nodes.length_elements, Tree.length_elements, Tree.modifyElement, Tree.size_modify,
      List.countP_append, ← h.elements, Tree.length_elements]
    refine List.countP_congr fun j _ => ?_
    rw [Tree.shell?, Tree.shell?, ← Tree.modifyElement, Tree.element?_modifyElement]
    split <;> cases b.tree.element? j <;> simp
  · rw [hends.nodes.endTag?, Tree.endTag?_setEndTag, hclosings, List.mem_append,
      List.mem_singleton, Prod.mk.injEq]
    by_cases hj : id = j
    · subst hj
      rw [if_pos rfl, he, Option.map_some, Option.some.injEq]
      exact ⟨fun heq => .inr ⟨rfl, heq.symm⟩, fun hx => hx.elim (fun hx => absurd hx (hfresh x))
        fun heq => heq.2.symm⟩
    · rw [if_neg hj, h.ended]
      exact ⟨.inl, fun hx => hx.resolve_right fun heq => hj heq.1.symm⟩
  · rw [hclosings, List.map_append, List.map_singleton, List.nodup_append]
    refine ⟨h.once, List.pairwise_singleton .., ?_⟩
    rintro _ hj _ hid rfl
    obtain ⟨⟨j, x⟩, hx, rfl⟩ := List.mem_map.1 hj
    obtain rfl := List.mem_singleton.1 hid
    exact hfresh x hx
  · rw [refusals_congr hends.diagnostics, h.refused, List.countP_append, List.countP_singleton,
      isRefused, hfind]
    rfl

/-- The end tag fits no open element. -/
theorem onEndTag_refused (h : b.Census ms) (hnone : ∀ j ∈ b.opened, b.closes tag.rawName j = false) :
    (b.onEndTag tag).Census (ms ++ [(b, .endTag tag)]) := by
  have hfind : b.opened.find? (b.closes tag.rawName) = none :=
    List.find?_eq_none.2 fun j hj => by simp [hnone j hj]
  have hclosings : (ms ++ [(b, MarkupUnit.endTag tag)]).filterMap closing? = ms.filterMap closing? := by
    simp [closing?, hfind]
  rw [onEndTag_refuses hnone]
  refine ⟨h.laid, h.leaves, ?_, fun j x => ?_, ?_, ?_⟩
  · rw [List.countP_append]
    exact h.elements
  · rw [hclosings]
    exact h.ended j x
  · rw [hclosings]
    exact h.once
  · rw [refusals, Builder.report]
    show ((b.diagnostics.push _).toList.filter _).length = _
    rw [Array.toList_push, List.filter_append, List.length_append, List.countP_append,
      List.countP_singleton, isRefused, hfind, ← h.refused]
    rfl

theorem onEndTag (h : b.Census ms) (tag : EndTag) :
    (b.onEndTag tag).Census (ms ++ [(b, .endTag tag)]) := by
  by_cases hnone : ∀ j ∈ b.opened, b.closes tag.rawName j = false
  · exact h.onEndTag_refused hnone
  · obtain ⟨inner, id, outer, ho, hid, hinner⟩ := exists_closes hnone
    exact h.onEndTag_closes ho hid hinner

/-- Whatever unit is taken, the census goes on. -/
theorem onUnit (h : b.Census ms) (u : MarkupUnit) : (b.onUnit u).Census (ms ++ [(b, u)]) := by
  obtain ⟨log, hunit⟩ := b.onUnit_withLog u
  have hlogged := h.withLog log
  have hsame : ∀ {b'' : Builder}, b''.Census (ms ++ [(b.withLog log, u)]) →
      b''.Census (ms ++ [(b, u)]) := by
    intro b'' h''
    have hclosing : closing? (b.withLog log, u) = closing? (b, u) := by cases u <;> rfl
    have hrefused : isRefused (b.withLog log, u) = isRefused (b, u) := by cases u <;> rfl
    have hclosings : (ms ++ [(b.withLog log, u)]).filterMap closing? =
        (ms ++ [(b, u)]).filterMap closing? := by
      rw [List.filterMap_append, List.filterMap_append, List.filterMap_cons, List.filterMap_cons,
        hclosing]
    refine ⟨h''.laid, h''.leaves, ?_, hclosings ▸ h''.ended, hclosings ▸ h''.once, ?_⟩
    · rw [h''.elements, List.countP_append, List.countP_append, List.countP_singleton,
        List.countP_singleton]
    · rw [h''.refused, List.countP_append, List.countP_append, List.countP_singleton,
        List.countP_singleton, hrefused]
  rw [hunit]
  refine hsame ?_
  cases u with
  | startTag tag => exact hlogged.onStartTag tag
  | endTag tag => exact hlogged.onEndTag tag
  | text run => exact hlogged.addLeaf rfl nofun rfl rfl
  | mustache m =>
    have hadded : ((b.withLog log).addNode (.mustache ⟨none, #[], m.extent⟩) m.extent).Census
        (ms ++ [(b.withLog log, .mustache m)]) := hlogged.addLeaf rfl nofun rfl rfl
    exact { hadded with }

theorem follows (h : b.Census ms) (hf : b.Follows ms' b') : b'.Census (ms ++ ms') := by
  induction hf with
  | nothing => rwa [List.append_nil]
  | unit hf u ih =>
    rw [← List.append_assoc]
    exact ih.onUnit u
  | read hf x a ih => exact { ih with }

theorem ofChars (cs : List Char) (l : Locator) (tracing : Bool) : (ofChars cs l tracing).Census [] where
  laid := .ofRoot _
  leaves id e he := by cases id <;> cases he
  elements := rfl
  ended id x := by
    cases id <;> exact ⟨nofun, nofun⟩
  once := .nil
  refused := rfl

end Census
end Builder
/-! ## Each end tag is used once -/

/-- A unit starts where its first token does. -/
theorem Grouped.start_mem {ts : List Token} {us : List MarkupUnit} (h : Grouped ts us) :
    ∀ u ∈ us, ∃ t ∈ ts, t.extent.span.start = u.extent.span.start := by
  induction h with
  | nil => exact List.forall_mem_nil _
  | @snoc ts g us v h hout hv ih =>
    refine List.forall_mem_append.2 ⟨fun u hu => ?_, List.forall_mem_singleton.2 ?_⟩
    · obtain ⟨t, ht, hstart⟩ := ih u hu
      exact ⟨t, List.mem_append_left _ ht, hstart⟩
    · obtain ⟨first, last, hfirst, -, hextent⟩ := hv.extent
      exact ⟨first, List.mem_append_right _ (List.mem_of_head? hfirst), by rw [hextent]; rfl⟩

/-- Units follow each other as their tokens do. -/
theorem Grouped.starts {ts : List Token} {us : List MarkupUnit} (h : Grouped ts us)
    (hts : ts.Pairwise fun a b => a.extent.span.start < b.extent.span.start) :
    us.Pairwise fun u v => u.extent.span.start < v.extent.span.start := by
  induction h with
  | nil => exact .nil
  | @snoc ts g us v h hout hv ih =>
    obtain ⟨hfront, -, hbetween⟩ := List.pairwise_append.1 hts
    refine List.pairwise_append.2 ⟨ih hfront, List.pairwise_singleton .., fun u hu w hw => ?_⟩
    obtain rfl := List.mem_singleton.1 hw
    obtain ⟨t, ht, hstart⟩ := h.start_mem u hu
    obtain ⟨first, last, hfirst, -, hextent⟩ := hv.extent
    have hlt := hbetween t ht first (List.mem_of_head? hfirst)
    rw [hextent]
    exact hstart ▸ hlt

namespace Builder

variable {ms : List (Builder × MarkupUnit)}

/-- The place that is on record with a closing is that of the end tag. -/
theorem endTag_of_closing? {m : Builder × MarkupUnit} {c : Nat × Extent} (h : closing? m = some c) :
    ∃ tag, m.2 = .endTag tag ∧ tag.extent = c.2 := by
  obtain ⟨b, u⟩ := m
  cases u with
  | endTag tag =>
    obtain ⟨id, -, rfl⟩ := Option.map_eq_some_iff.1 h
    exact ⟨tag, rfl, rfl⟩
  | startTag _ | text _ | mustache _ => cases h

/-- End tags at different places close different elements. -/
theorem closings_injective
    (h : (ms.map Prod.snd).Pairwise fun u v => u.extent.span.start < v.extent.span.start) :
    ((ms.filterMap closing?).map Prod.snd).Nodup := by
  rw [List.pairwise_map] at h
  rw [List.nodup_iff_pairwise_ne, List.pairwise_map, List.pairwise_filterMap]
  refine h.imp fun {m m'} hlt c hc c' hc' heq => ?_
  obtain ⟨tag, hu, htag⟩ := endTag_of_closing? hc
  obtain ⟨tag', hu', htag'⟩ := endTag_of_closing? hc'
  have hsame : tag.extent = tag'.extent := htag.trans (heq.trans htag'.symm)
  rw [hu, hu', MarkupUnit.extent, MarkupUnit.extent, hsame] at hlt
  exact Nat.lt_irrefl _ hlt

end Builder

/-! ## What an end tag does -/

namespace Builder

variable {b : Builder} {tag : EndTag} {inner outer : List Nat} {id : Nat}

/-- The name of the element is that of the end tag, up to the case of letters. -/
def Answers (b : Builder) (tag : EndTag) (id : Nat) : Prop :=
  ∃ e, b.tree.element? id = some e ∧ Text.sameLetters e.name tag.rawName = true

/-- The end tag goes to the element `id`.  The elements `inner` are closed without an end tag, and the
elements `outer` stay open.  No other node changes. -/
structure Closes (b : Builder) (tag : EndTag) (inner : List Nat) (id : Nat) (outer : List Nat) :
    Prop where
  target : ∃ e, b.tree.element? id = some e ∧ e.endTag = none ∧
    (b.onUnit (.endTag tag)).tree.element? id = some { e with endTag := some tag.extent }
  closed : ∀ j ∈ inner, ∃ e, b.tree.element? j = some e ∧ e.endTag = none ∧
    (b.onUnit (.endTag tag)).tree.element? j = some e
  opened : (b.onUnit (.endTag tag)).opened = outer
  stays : ∀ j ∈ outer, (b.onUnit (.endTag tag)).tree.node? j = b.tree.node? j
  others : ∀ j ∉ inner, j ≠ id → (b.onUnit (.endTag tag)).tree.node? j = b.tree.node? j
  diagnostics : (b.onUnit (.endTag tag)).diagnostics = b.diagnostics

/-- The end tag is reported, and what may be logged apart nothing else changes. -/
def Refuses (b : Builder) (tag : EndTag) : Prop :=
  ∃ log breaches, b.onUnit (.endTag tag) = { b with
    lexer := { b.lexer with log }
    breaches
    diagnostics := b.diagnostics.push
      (b.locator.diagnose (.invalidEndTag tag.rawName.toLower) tag.extent.span.start) }

theorem answers_iff : b.Answers tag id ↔ b.closes tag.rawName id = true := by
  rw [Answers, closes]
  cases b.tree.element? id with
  | none => simp
  | some e => simp

theorem not_answers_iff : ¬ b.Answers tag id ↔ b.closes tag.rawName id = false := by
  rw [answers_iff, Bool.not_eq_true]

theorem Laid.closes (h : b.Laid) (ho : b.opened = inner ++ id :: outer) (hid : b.Answers tag id)
    (hinner : ∀ j ∈ inner, ¬ b.Answers tag j) : b.Closes tag inner id outer := by
  obtain ⟨log, hunit⟩ := b.onUnit_withLog (.endTag tag)
  have hends : (b.withLog log).Ends tag inner id outer (b.onUnit (.endTag tag)) := by
    rw [hunit]
    exact onEndTag_ends ho (answers_iff.1 hid) fun j hj => not_answers_iff.1 (hinner j hj)
  have hnodup : (inner ++ id :: outer).Nodup := ho ▸ Tree.Spine.nodup h.spine h.linked
  obtain ⟨-, houter, hapart⟩ := List.nodup_append.1 hnodup
  have hopened : ∀ j ∈ inner ++ id :: outer, ∃ e, b.tree.element? j = some e ∧ e.endTag = none :=
    fun j hj => h.endTag?_of_mem (ho ▸ hj)
  have helement : ∀ j, (b.onUnit (.endTag tag)).tree.element? j =
      if id = j then (b.tree.element? j).map fun e => { e with endTag := some tag.extent }
        else b.tree.element? j := fun j => by
    rw [hends.nodes.element?, Tree.element?_modifyElement]
    rfl
  have hothers : ∀ j ∉ inner, j ≠ id →
      (b.onUnit (.endTag tag)).tree.node? j = b.tree.node? j := hends.frame
  refine ⟨?_, fun j hj => ?_, hends.opened, fun j hj => ?_, hothers, hends.diagnostics⟩
  · obtain ⟨e, he, hnone⟩ := hopened id (List.mem_append_right _ (List.mem_cons_self ..))
    exact ⟨e, he, hnone, by rw [helement, if_pos rfl, he]; rfl⟩
  · obtain ⟨e, he, hnone⟩ := hopened j (List.mem_append_left _ hj)
    have hne : id ≠ j := fun heq => hapart j hj id (List.mem_cons_self ..) heq.symm
    exact ⟨e, he, hnone, by rw [helement, if_neg hne, he]⟩
  · refine hothers j (fun hin => hapart j hin j (List.mem_cons_of_mem id hj) rfl) ?_
    rintro rfl
    exact (List.nodup_cons.1 houter).1 hj

/-- What is closed with the element stays as it is. -/
theorem Laid.shut_of_closes (h : b.Laid) (ho : b.opened = inner ++ id :: outer)
    (hcloses : b.Closes tag inner id outer) {j : Nat} (hj : j ∈ inner) :
    (b.onUnit (.endTag tag)).Shut j := by
  obtain ⟨e, -, -, he⟩ := hcloses.closed j hj
  obtain ⟨n, hn, -⟩ := Option.bind_eq_some_iff.1 he
  have hmem : j ∈ b.opened := ho ▸ List.mem_append_left _ hj
  refine ⟨Tree.lt_size hn, Nat.ne_of_gt (h.spine.lt_size h.linked hmem).1, ?_⟩
  have hnodup : (inner ++ id :: outer).Nodup := ho ▸ Tree.Spine.nodup h.spine h.linked
  rw [hcloses.opened]
  exact fun hin => (List.nodup_append.1 hnodup).2.2 j hj j (List.mem_cons_of_mem id hin) rfl

/-- An end tag is refused if no open element has its name, and not otherwise. -/
theorem Laid.refuses_iff (h : b.Laid) :
    (∀ j ∈ b.opened, ¬ b.Answers tag j) ↔ b.Refuses tag := by
  constructor
  · intro hnone
    obtain ⟨log, hunit⟩ := b.onUnit_withLog (.endTag tag)
    refine ⟨log, _, hunit.trans (onEndTag_refuses fun j hj => ?_)⟩
    exact not_answers_iff.1 (hnone j hj)
  · rintro ⟨log, breaches, hunit⟩ j hj hanswers
    have hsome : ¬ ∀ i ∈ b.opened, b.closes tag.rawName i = false := fun hall =>
      not_answers_iff.2 (hall j hj) hanswers
    obtain ⟨inner, id, outer, ho, hid, hinner⟩ := exists_closes hsome
    have hcloses := h.closes ho (answers_iff.2 hid) fun i hi => not_answers_iff.2 (hinner i hi)
    have hopened : b.opened = outer := by rw [← hcloses.opened, hunit]
    have hlength := congrArg List.length (ho.symm.trans hopened)
    simp at hlength
    omega

end Builder
namespace Template

variable {text : String} {o : Options} {reader : Script.Reader}

theorem census (text : String) (o : Options) :
    (behindUnits text o).Census (moments text o) := by
  have hstart : (startOf text o).Census [] :=
    .ofChars text.toList (locatorOf text o) o.tracing
  exact hstart.follows (follows_moments text o)

/-- Behind the last unit, only places change in the tree of the outline. -/
theorem sameNodes_outlineOf (text : String) (o : Options) :
    (behindUnits text o).tree.SameNodes (outlineOf text o).tree := by
  rw [outlineOf_tree, builderOf_eq_behindUnits]
  exact ((behindUnits text o).closeInnermost_sameNodes _).1.trans (.place _ _ _)

theorem parse_endTag? (reader : Script.Reader) (id : Nat) :
    (parse text o reader).tree.endTag? id = (behindUnits text o).tree.endTag? id := by
  rw [Tree.endTag?_eq_shell, parse_shell?, ← Tree.endTag?_eq_shell]
  exact (sameNodes_outlineOf text o).endTag? id

theorem parse_elements :
    (parse text o reader).tree.elements.length = (behindUnits text o).tree.elements.length := by
  rw [← (sameNodes_outlineOf text o).length_elements, Tree.length_elements, Tree.length_elements,
    (sameShape_parse text o).size]
  simp only [parse_shell?]

/-- Each refused end tag has left one diagnostic. -/
theorem parse_refusals : ((parse text o reader).diagnostics.toList.filter
    (·.cause.isInvalidEndTag)).length = (behindUnits text o).refusals.length := by
  have hsorted : (parse text o reader).diagnostics.toList.Perm
      ((outlineOf text o).diagnostics.toList ++ (progressOf text o reader).log.toList.filterMap
        (LogEntry.diagnostic? (locatorOf text o))) := by
    simp only [parse_eq]
    exact List.mergeSort_perm _ _
  have hread : ((progressOf text o reader).log.toList.filterMap
      (LogEntry.diagnostic? (locatorOf text o))).filter (·.cause.isInvalidEndTag) = [] := by
    refine List.filter_eq_nil_iff.2 fun d hd => ?_
    obtain ⟨x, -, hx⟩ := List.mem_filterMap.1 hd
    cases x with
    | expressionFault _ _ | keyFault _ _ =>
      obtain rfl := Option.some.inj hx
      exact Bool.false_ne_true
    | transition _ _ _ | pulled _ _ | interpolationOff _ | converting _ _ => cases hx
  have hsyntactic : ∀ {ds : Array Diagnostic}, (∀ d ∈ ds, d.cause.isSyntactic = true) →
      ds.toList.filter (·.cause.isInvalidEndTag) = [] := by
    intro ds hds
    refine List.filter_eq_nil_iff.2 fun d hd => ?_
    rw [Cause.isInvalidEndTag_of_isSyntactic (hds d (Array.mem_toList_iff.1 hd))]
    exact Bool.false_ne_true
  obtain ⟨taken, hwhole⟩ := builderOf_whole text o
  have hreports := builderOf_allReport text o
  have hlexer := hsyntactic (hreports.lexer hwhole.tracks.noBreach).syntactic
  have hassembler := hsyntactic fun d hd => (hreports.assembler d hd).1
  have hbuilder : (builderOf text o).diagnostics = (behindUnits text o).diagnostics := by
    rw [builderOf_eq_behindUnits]
    exact (behindUnits text o).placeRoot_closeAll_diagnostics
  have houtline : (outlineOf text o).diagnostics.toList = (builderOf text o).lexer.diagnostics.toList ++
      (builderOf text o).assembler.diagnostics.toList ++ (behindUnits text o).diagnostics.toList := by
    simp only [outlineOf_eq, Array.toList_append, hbuilder]
  rw [(hsorted.filter _).length_eq, List.filter_append, hread, List.append_nil, houtline,
    List.filter_append, List.filter_append, hlexer, hassembler, List.append_nil, List.nil_append,
    Builder.refusals]

/-- Each closing has given one element its end tag. -/
theorem length_closings (text : String) (o : Options) :
    ((moments text o).filterMap Builder.closing?).length =
      (parse text o reader).tree.elements.countP fun e => e.endTag.isSome := by
  have hcensus := census text o
  have hperm : (((moments text o).filterMap Builder.closing?).map Prod.fst).Perm
      ((List.range (behindUnits text o).tree.size).filter fun id =>
        ((behindUnits text o).tree.endTag? id).isSome) := by
    refine (List.perm_ext_iff_of_nodup hcensus.once (List.nodup_range.filter _)).2 fun id => ?_
    rw [List.mem_map, List.mem_filter, List.mem_range, Option.isSome_iff_exists]
    constructor
    · rintro ⟨⟨id, x⟩, hx, rfl⟩
      have hend := (hcensus.ended id x).2 hx
      obtain ⟨e, he, -⟩ := Option.bind_eq_some_iff.1 hend
      obtain ⟨n, hn, -⟩ := Option.bind_eq_some_iff.1 he
      exact ⟨Tree.lt_size hn, x, hend⟩
    · rintro ⟨-, x, hx⟩
      exact ⟨(id, x), (hcensus.ended id x).1 hx, rfl⟩
  have hsize : (parse text o reader).tree.size = (behindUnits text o).tree.size := by
    rw [(sameShape_parse text o).size, (sameNodes_outlineOf text o).size]
  have hend : ∀ id, (((parse text o reader).tree.element? id).map fun e => e.endTag.isSome).getD false =
      ((behindUnits text o).tree.endTag? id).isSome := fun id => by
    rw [← parse_endTag? reader, Tree.endTag?]
    cases (parse text o reader).tree.element? id <;> rfl
  rw [← List.length_map (f := Prod.fst), hperm.length_eq, ← List.countP_eq_length_filter, Tree.elements,
    List.countP_filterMap, hsize]
  simp only [hend]

/-- What becomes of the end tags of a template. -/
structure EndTagsConserved (text : String) (o : Options) (reader : Script.Reader) : Prop where
  /-- An end tag closes the innermost open element of its name.  For good, it is the end tag of that
  element, and the open elements inside have none. -/
  closes : ∀ b tag, (b, .endTag tag) ∈ moments text o → ∀ inner id outer,
    b.opened = inner ++ id :: outer → b.Answers tag id → (∀ j ∈ inner, ¬ b.Answers tag j) →
      b.Closes tag inner id outer ∧ (parse text o reader).tree.endTag? id = some tag.extent ∧
        ∀ j ∈ inner, (parse text o reader).tree.endTag? j = none
  /-- It is refused if and only if there is none. -/
  refuses : ∀ b tag, (b, .endTag tag) ∈ moments text o →
    ((∀ j ∈ b.opened, ¬ b.Answers tag j) ↔ b.Refuses tag)
  /-- Each end tag is that of an element or is reported. -/
  count : (unitsOf text o).countP MarkupUnit.isEndTag =
    (parse text o reader).tree.elements.countP (fun e => e.endTag.isSome) +
      (parse text o reader).diagnostics.toList.countP (·.cause.isInvalidEndTag)
  /-- No end tag is that of two elements. -/
  once : ∀ i j x, (parse text o reader).tree.endTag? i = some x →
    (parse text o reader).tree.endTag? j = some x → i = j
  /-- What has an end tag got it from one of the units. -/
  unit : ∀ id x, (parse text o reader).tree.endTag? id = some x →
    ∃ tag, .endTag tag ∈ unitsOf text o ∧ tag.extent = x
  leaves : ∀ id e, (parse text o reader).tree.element? id = some e → e.isLeaf = true →
    e.endTag = none ∧ e.children = #[]
  elements : (parse text o reader).tree.elements.length =
    (unitsOf text o).countP MarkupUnit.isStartTag

/-- Over a whole template end tags are conserved: each closes the innermost open element of its name, or
is refused. -/
theorem parse_endTagsConserved (text : String) (o : Options) (reader : Script.Reader) :
    EndTagsConserved text o reader := by
  have hcensus := census text o
  have hfollows := follows_moments text o
  have hstart : (startOf text o).Census [] := .ofChars text.toList (locatorOf text o) o.tracing
  have hmoment : ∀ {b u}, (b, u) ∈ moments text o → b.Laid ∧
      ∃ ms, (b.onUnit u).Follows ms (behindUnits text o) := by
    intro b u hmem
    obtain ⟨front, behind, hsplit⟩ := List.append_of_mem hmem
    rw [hsplit] at hfollows
    obtain ⟨hto, hfrom⟩ := hfollows.split
    exact ⟨(hstart.follows hto).laid, behind, hfrom⟩
  refine {
    closes := fun b tag hmem inner id outer ho hid hinner => ?_
    refuses := fun b tag hmem => (hmoment hmem).1.refuses_iff
    count := ?_
    once := fun i j x hi hj => ?_
    unit := fun id x hx => ?_
    leaves := fun id e he hleaf => ?_
    elements := ?_ }
  · obtain ⟨hlaid, ms, hfrom⟩ := hmoment hmem
    have hcloses := hlaid.closes ho hid hinner
    refine ⟨hcloses, ?_, fun j hj => ?_⟩
    · rw [parse_endTag?, hcensus.ended]
      have hfind : b.opened.find? (b.closes tag.rawName) = some id := by
        rw [ho, List.find?_append,
          List.find?_eq_none.2 fun j hj => by simpa [Builder.answers_iff] using hinner j hj]
        exact List.find?_cons_of_pos (Builder.answers_iff.1 hid)
      exact List.mem_filterMap.2 ⟨_, hmem, by rw [Builder.closing?, hfind]; rfl⟩
    · obtain ⟨e, he, hnone, hafter⟩ := hcloses.closed j hj
      have hstays := (hlaid.shut_of_closes ho hcloses hj).follows hfrom
      rw [parse_endTag?, Tree.endTag?, Tree.element?, hstays.node, ← Tree.element?, hafter]
      exact hnone
  · have hrefused : (parse text o reader).diagnostics.toList.countP (·.cause.isInvalidEndTag) =
        (moments text o).countP Builder.isRefused := by
      rw [List.countP_eq_length_filter, parse_refusals, hcensus.refused]
    rw [← moments_units, List.countP_map, ← length_closings, hrefused]
    exact Builder.countP_isEndTag _
  · rw [parse_endTag?, hcensus.ended] at hi hj
    have hstarts := (outline_sharesOut text o Script.parse).grouped.starts
      (outline_piecesApart text o Script.parse).tokens
    rw [← moments_units] at hstarts
    exact congrArg Prod.fst
      (List.inj_on_of_nodup_map (Builder.closings_injective hstarts) hi hj rfl)
  · rw [parse_endTag?, hcensus.ended] at hx
    obtain ⟨m, hmem, hclosing⟩ := List.mem_filterMap.1 hx
    obtain ⟨tag, hu, htag⟩ := Builder.endTag_of_closing? hclosing
    exact ⟨tag, hu ▸ moments_units text o ▸ List.mem_map_of_mem hmem, htag⟩
  · have hshell : (behindUnits text o).tree.shell? id = some e.shell := by
      rw [Tree.shell?, ← (sameNodes_outlineOf text o).element?, ← Tree.shell?,
        ← parse_shell? text o reader, Tree.shell?, he]
      rfl
    obtain ⟨e', he', hsame⟩ := Option.map_eq_some_iff.1 hshell
    have hleaf' : e'.isLeaf = true := (congrArg Element.isLeaf hsame).trans hleaf
    obtain ⟨hend, hchildren, -⟩ := hcensus.leaves id e' he' hleaf'
    exact ⟨(congrArg Element.endTag hsame).symm.trans hend,
      (congrArg Element.children hsame).symm.trans hchildren⟩
  · rw [parse_elements, hcensus.elements, ← moments_units, List.countP_map]
    rfl

end Template
end TemplateSyntax
