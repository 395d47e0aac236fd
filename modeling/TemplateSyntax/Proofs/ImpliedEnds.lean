import TemplateSyntax.Proofs.BuilderSteps
import TemplateSyntax.Proofs.ElementShell

/-! # Ends that start tags imply

A start tag whose element may not stand in the innermost open element closes that one, and no other.
What comes to light then is the element around it, and the end of that may be implied as well: `<li>`
closes the `p` in `<li><p>` and stays in the first `li`.  `parse_impliedNesting` says that this is all
that happens.  Nothing is nested like that in a `p`, and in other elements it stands behind a `p` that
was left open. -/

namespace TemplateSyntax

namespace ElementClass

theorem impliesEnd_iff {current name : String} : impliesEnd current name = true ↔
    (current = "p" ∧ name ∈ nonPhrasingElements) ∨ (current = name ∧ name ∈ canBeLeftOpen) ∨
      (isDescriptionPart name = true ∧ isDescriptionPart current = true) := by
  simp [impliesEnd, or_assoc]

theorem isDescriptionPart_iff {name : String} :
    isDescriptionPart name = true ↔ name = "dt" ∨ name = "dd" := by
  simp [isDescriptionPart]

/-- A name that ends both an element and another one inside it: the inner one may not stand there itself,
or is a `p`. -/
theorem impliesEnd_inner {outer inner name : String} (ho : impliesEnd outer name = true)
    (hi : impliesEnd inner name = true) :
    impliesEnd outer inner = true ∨ inner = "p" ∧ outer ≠ "p" := by
  rcases impliesEnd_iff.1 hi with ⟨rfl, -⟩ | ⟨rfl, -⟩ | ⟨hname, hinner⟩
  · by_cases hp : outer = "p"
    · exact .inl (by rw [hp]; decide)
    · exact .inr ⟨rfl, hp⟩
  · exact .inl ho
  · refine .inl (impliesEnd_iff.2 ?_)
    rcases impliesEnd_iff.1 ho with ⟨hp, -⟩ | ⟨-, hopen⟩ | ⟨-, houter⟩
    · refine .inl ⟨hp, ?_⟩
      rcases isDescriptionPart_iff.1 hinner with rfl | rfl <;> decide
    · -- a part of a description list is not one that the same name ends
      rcases isDescriptionPart_iff.1 hname with rfl | rfl <;> exact absurd hopen (by decide)
    · exact .inr (.inr ⟨hinner, houter⟩)

end ElementClass

/-- What the tags of an element say. -/
structure Label where
  name : String
  rawName : String
  ns : Namespace
  ended : Bool
  deriving DecidableEq

/-- The start tag `name` implies the end of an HTML element with this label. -/
def Label.EndsAt (x : Label) (name : String) : Prop :=
  x.ns = .html ∧ ElementClass.impliesEnd x.name name = true

/-- What a label says but for the end tag. -/
def Label.named (x : Label) : String × String × Namespace := (x.name, x.rawName, x.ns)

theorem Label.named_eq_iff {x y : Label} :
    x.named = y.named ↔ x.name = y.name ∧ x.rawName = y.rawName ∧ x.ns = y.ns := by
  simp [named]

/-- The element has no content. -/
def Label.IsVoid (x : Label) : Prop :=
  x.ns = .html ∧ ElementClass.voidElements.contains x.name = true

/-- The name, the namespace and whether there is an end tag. -/
def Element.label (e : Element) : Label := ⟨e.name, e.rawName, e.ns, e.endTag.isSome⟩

namespace Tree

variable {t t' : Tree} {id c d p i j k : Nat} {opened outer : List Nat} {content : NodeContent}
  {extent : Extent}

/-- The start tag of the element `c` implies the end of the HTML element `id`. -/
def ImpliesEnd (t : Tree) (c id : Nat) : Prop :=
  ∃ x e, t.element? c = some x ∧ t.element? id = some e ∧ e.ns = .html ∧
    ElementClass.impliesEnd e.name x.rawName.toLower = true

/-- In no element is there a child whose start tag implies the end of it. -/
def NoImpliedNesting (t : Tree) : Prop := ∀ p c, c ∈ t.children p → ¬ t.ImpliesEnd c p

/-- The element has no end tag. -/
def LeftOpen (t : Tree) (id : Nat) : Prop := ∃ e, t.element? id = some e ∧ e.endTag = none

/-- What the tags of the element of an index say. -/
def label? (t : Tree) (id : Nat) : Option Label := (t.element? id).map Element.label

theorem impliesEnd_iff : t.ImpliesEnd c id ↔
    ∃ x y, t.label? c = some x ∧ t.label? id = some y ∧ y.EndsAt x.rawName.toLower := by
  constructor
  · rintro ⟨x, e, hx, he, h⟩
    exact ⟨x.label, e.label, by rw [label?, hx]; rfl, by rw [label?, he]; rfl, h⟩
  · rintro ⟨x, y, hx, hy, h⟩
    obtain ⟨e, he, rfl⟩ := Option.map_eq_some_iff.1 hx
    obtain ⟨e', he', rfl⟩ := Option.map_eq_some_iff.1 hy
    exact ⟨e, e', he, he', h⟩

theorem leftOpen_iff : t.LeftOpen id ↔ ∃ x, t.label? id = some x ∧ x.ended = false := by
  constructor
  · rintro ⟨e, he, hend⟩
    exact ⟨e.label, by rw [label?, he]; rfl, by rw [Element.label, hend]; rfl⟩
  · rintro ⟨x, hx, hend⟩
    obtain ⟨e, he, rfl⟩ := Option.map_eq_some_iff.1 hx
    exact ⟨e, he, by simpa [Element.label] using hend⟩

/-- What ends what is a matter of names. -/
theorem impliesEnd_congr (h : ∀ j, (t'.label? j).map Label.named = (t.label? j).map Label.named) :
    t'.ImpliesEnd c id ↔ t.ImpliesEnd c id := by
  have hone : ∀ {t t' : Tree}, (∀ j, (t'.label? j).map Label.named = (t.label? j).map Label.named) →
      t.ImpliesEnd c id → t'.ImpliesEnd c id := by
    intro t t' h himplied
    obtain ⟨x, y, hx, hy, hns, hends⟩ := impliesEnd_iff.1 himplied
    obtain ⟨x', hx', hxx⟩ := Option.map_eq_some_iff.1 ((h c).trans (congrArg _ hx))
    obtain ⟨y', hy', hyy⟩ := Option.map_eq_some_iff.1 ((h id).trans (congrArg _ hy))
    obtain ⟨-, hraw, -⟩ := Label.named_eq_iff.1 hxx
    obtain ⟨hname, -, hns'⟩ := Label.named_eq_iff.1 hyy
    exact impliesEnd_iff.2 ⟨x', y', hx', hy', hns'.trans hns, by rw [hraw, hname]; exact hends⟩
  exact ⟨hone fun j => (h j).symm, hone h⟩

theorem label?_eq_join (t : Tree) (id : Nat) :
    t.label? id = ((t.node? id).map fun n => n.element?.map Element.label).join := by
  rw [label?, element?]
  cases t.node? id <;> rfl

theorem label?_eq_shell (t : Tree) (id : Nat) : t.label? id = (t.shell? id).map Element.label := by
  rw [label?, shell?, Option.map_map]
  rfl

theorem label?_append (hj : j ≠ t.size) :
    (t.append p content extent).label? j = t.label? j := by
  rw [label?_eq_join, label?_eq_join, node?_append hj, map_node?_modify]
  intro n _
  obtain ⟨content, parent, extent⟩ := n
  cases content <;> rfl

theorem label?_append_self : (t.append p content extent).label? t.size =
    (Node.mk content (some p) extent).element?.map Element.label := by
  rw [label?, element?_eq (node?_append_self ..)]

theorem exists_element_of_label {x : Label}
    (hx : (t.append p content extent).label? t.size = some x) :
    ∃ e, content = .element e ∧ x = e.label := by
  rw [label?_append_self] at hx
  cases content with
  | element e => exact ⟨e, rfl, (Option.some.inj hx).symm⟩
  | root _ | text _ | mustache _ => exact absurd hx nofun

theorem impliesEnd_append (hc : c ≠ t.size) (hid : id ≠ t.size) :
    (t.append p content extent).ImpliesEnd c id ↔ t.ImpliesEnd c id := by
  rw [impliesEnd_iff, label?_append hc, label?_append hid, ← impliesEnd_iff]

theorem leftOpen_append (hd : d ≠ t.size) : (t.append p content extent).LeftOpen d ↔ t.LeftOpen d := by
  rw [leftOpen_iff, label?_append hd, ← leftOpen_iff]

theorem label?_setEndTag (t : Tree) (id j : Nat) (tag : Extent) :
    (t.modifyElement id fun e => { e with endTag := some tag }).label? j =
      if id = j then (t.label? j).map fun x => { x with ended := true } else t.label? j := by
  rw [label?, label?, element?_modifyElement]
  split
  · rw [Option.map_map, Option.map_map]
    rfl
  · rfl

theorem canHold_of_label {x : Label} (h : t.label? id = some x) : t.canHold id = true := by
  obtain ⟨e, he, -⟩ := Option.map_eq_some_iff.1 h
  obtain ⟨n, hn, hne⟩ := Option.bind_eq_some_iff.1 he
  rw [canHold, hn, Option.any_some, Node.canHold]
  unfold Node.element? at hne
  split at hne
  · next hc => rw [hc]
  · simp at hne

/-- The children that were there stay at their places when a node is added. -/
theorem getElem?_children_append (hhold : t.canHold p = true) (hid : id ≠ t.size)
    (hd : (t.children id)[j]? = some d) : ((t.append p content extent).children id)[j]? = some d := by
  by_cases hp : p = id
  · subst hp
    have hlt := (Array.getElem?_eq_some_iff.1 hd).1
    rw [children_append_parent hhold, Array.getElem?_push, if_neg (by omega), hd]
  · rwa [children_append_of_ne hid hp]

/-- A child was there before, or is the node that was added. -/
theorem children_append_cases (hhold : t.canHold p = true) (hid : id ≠ t.size)
    (hc : ((t.append p content extent).children id)[i]? = some c) :
    (t.children id)[i]? = some c ∨ p = id ∧ i = (t.children p).size ∧ c = t.size := by
  by_cases hp : p = id
  · subst hp
    rw [children_append_parent hhold] at hc
    rcases Nat.lt_or_ge i (t.children p).size with hi | hi
    · rw [Array.getElem?_push_lt hi, ← Array.getElem?_eq_getElem hi] at hc
      exact .inl hc
    · obtain rfl : i = (t.children p).size := by
        have := (Array.getElem?_eq_some_iff.1 hc).1
        rw [Array.size_push] at this
        omega
      rw [Array.getElem?_push_size] at hc
      exact .inr ⟨rfl, rfl, (Option.some.inj hc).symm⟩
  · rw [children_append_of_ne hid hp] at hc
    exact .inl hc

/-! ## The order of the children -/

/-- A child whose start tag implies the end of its parent comes next to a child that it closed: one whose
end it implies too, and which has no end tag.  HTML names are in lower case, and elements without
content have no children. -/
structure EndsImplied (t : Tree) : Prop where
  behind : ∀ p i c, (t.children p)[i]? = some c → t.ImpliesEnd c p →
    ∃ j d, i = j + 1 ∧ (t.children p)[j]? = some d ∧ t.ImpliesEnd c d ∧ t.LeftOpen d
  lower : ∀ id x, t.label? id = some x → x.ns = .html → x.name = x.rawName.toLower
  void : ∀ id x, t.label? id = some x → x.IsVoid → t.children id = #[]

theorem EndsImplied.congr (h : t.EndsImplied) (hchildren : ∀ j, t'.children j = t.children j)
    (hlabel : ∀ j, t'.label? j = t.label? j) : t'.EndsImplied where
  behind p i c hc himplied := by
    rw [hchildren] at hc
    simp only [impliesEnd_iff, leftOpen_iff, hchildren, hlabel] at himplied ⊢
    simpa only [impliesEnd_iff, leftOpen_iff] using h.behind p i c hc (impliesEnd_iff.2 himplied)
  lower id x hx := h.lower id x ((hlabel id).symm.trans hx)
  void id x hx hvoid := (hchildren id).trans (h.void id x ((hlabel id).symm.trans hx) hvoid)

/-- A `p` among the children was left open, and from there on each child ended the one before it. -/
def BehindOpenParagraph (t : Tree) (p k : Nat) : Prop :=
  ∃ i < k, (∃ d e, (t.children p)[i]? = some d ∧ t.element? d = some e ∧ e.ns = .html ∧ e.name = "p") ∧
    ∀ j, i ≤ j → j < k → ∃ d c, (t.children p)[j]? = some d ∧ (t.children p)[j + 1]? = some c ∧
      t.ImpliesEnd c d ∧ t.LeftOpen d

/-- Going back from a child whose start tag implies the end of its parent there is a `p`. -/
theorem EndsImplied.behindOpenParagraph (h : t.EndsImplied) (hc : (t.children p)[k]? = some c)
    (himplied : t.ImpliesEnd c p) :
    (∃ e, t.element? p = some e ∧ e.name ≠ "p" ∧ e.name ≠ "source") ∧ t.BehindOpenParagraph p k := by
  induction k generalizing c with
  | zero =>
    obtain ⟨j, d, hj, -⟩ := h.behind p 0 c hc himplied
    exact absurd hj (Nat.succ_ne_zero j).symm
  | succ k ih =>
    obtain ⟨j, d, hj, hd, hended, hopen⟩ := h.behind p (k + 1) c hc himplied
    obtain rfl : k = j := Nat.succ.inj hj
    have hlast : ∃ d c, (t.children p)[k]? = some d ∧ (t.children p)[k + 1]? = some c ∧
        t.ImpliesEnd c d ∧ t.LeftOpen d := ⟨d, c, hd, hc, hended, hopen⟩
    obtain ⟨x, e, hx, he, hns, houter⟩ := himplied
    obtain ⟨x', y, hx', hy, hyns, hinner⟩ := hended
    obtain rfl := Option.some.inj (hx.symm.trans hx')
    have hylower : y.name = y.rawName.toLower :=
      h.lower d y.label (by rw [label?, hy]; rfl) hyns
    have hvoid : e.name ≠ "source" := by
      intro hsource
      have hnone := h.void p e.label (by rw [label?, he]; rfl)
        ⟨hns, show ElementClass.voidElements.contains e.name = true by rw [hsource]; decide⟩
      rw [hnone] at hc
      simp at hc
    rcases ElementClass.impliesEnd_inner houter hinner with hnested | ⟨hyp, hep⟩
    · -- the sibling may not stand here either
      obtain ⟨hparent, i, hi, hparagraph, hchain⟩ :=
        ih hd ⟨y, e, hy, he, hns, hylower ▸ hnested⟩
      refine ⟨hparent, i, by omega, hparagraph, fun j hij hj => ?_⟩
      rcases Nat.lt_succ_iff_lt_or_eq.1 hj with hj | rfl
      · exact hchain j hij hj
      · exact hlast
    · refine ⟨⟨e, he, hep, hvoid⟩, k, Nat.lt_succ_self k, ⟨d, y, hd, hy, hyns, hyp⟩, fun j hij hj => ?_⟩
      obtain rfl : j = k := by omega
      exact hlast

/-- A child that was there stands behind the same sibling as before.  One that is added stands behind the
last, so that it is that one which it has to have closed. -/
theorem EndsImplied.behind_append (h : t.EndsImplied) (hl : t.Linked) (hhold : t.canHold p = true)
    (hself : (t.append p content extent).children t.size = #[])
    (himplied : ∀ e y, content = .element e → t.label? p = some y → y.EndsAt e.rawName.toLower →
      ∃ d z, (t.children p).back? = some d ∧ t.label? d = some z ∧ z.EndsAt e.rawName.toLower ∧
        z.ended = false) (q i c : Nat)
    (hq : ((t.append p content extent).children q)[i]? = some c)
    (hends : (t.append p content extent).ImpliesEnd c q) :
    ∃ j d, i = j + 1 ∧ ((t.append p content extent).children q)[j]? = some d ∧
      (t.append p content extent).ImpliesEnd c d ∧ (t.append p content extent).LeftOpen d := by
  have hchild : ∀ q d, d ∈ t.children q → d ≠ t.size := fun q d hd =>
    Nat.ne_of_lt (hl.child q d hd).2.2
  have hqsize : q ≠ t.size := by
    rintro rfl
    rw [hself] at hq
    simp at hq
  rcases children_append_cases hhold hqsize hq with hq | ⟨rfl, rfl, rfl⟩
  · have hcsize := hchild q c (Array.mem_of_getElem? hq)
    obtain ⟨j, d, hi, hd, hended, hopen⟩ :=
      h.behind q i c hq ((impliesEnd_append hcsize hqsize).1 hends)
    have hdsize := hchild q d (Array.mem_of_getElem? hd)
    exact ⟨j, d, hi, getElem?_children_append hhold hqsize hd,
      (impliesEnd_append hcsize hdsize).2 hended, (leftOpen_append hdsize).2 hopen⟩
  · obtain ⟨x, y, hx, hy, hendsAt⟩ := impliesEnd_iff.1 hends
    obtain ⟨e, he, rfl⟩ := exists_element_of_label hx
    rw [label?_append hqsize] at hy
    obtain ⟨d, z, hd, hz, hzends, hzopen⟩ := himplied e y he hy hendsAt
    rw [← label?_append (hchild _ d (Array.mem_of_back? hd))] at hz
    obtain ⟨init, hinit⟩ := Array.back?_eq_some_iff.1 hd
    exact ⟨init.size, d, by rw [hinit, Array.size_push],
      getElem?_children_append hhold hqsize (by rw [hinit, Array.getElem?_push_size]),
      impliesEnd_iff.2 ⟨_, z, hx, hz, hzends⟩, leftOpen_iff.2 ⟨z, hz, hzopen⟩⟩

/-! ## Trees with open elements -/

/-- What holds of a tree and the elements that are open. -/
structure Laid (t : Tree) (opened : List Nat) : Prop where
  linked : t.Linked
  root : t.canHold root = true ∧ t.label? root = none
  spine : t.Spine opened
  opens : ∀ id ∈ opened, ∃ x, t.label? id = some x ∧ x.ended = false ∧ ¬ x.IsVoid
  ends : t.EndsImplied

/-- The nodes of two trees differ in their places only. -/
def SameNodes (t t' : Tree) : Prop :=
  ∀ j, (t'.node? j).map (fun n => (n.content, n.parent)) =
    (t.node? j).map fun n => (n.content, n.parent)

namespace SameNodes

theorem refl (t : Tree) : t.SameNodes t := fun _ => rfl

theorem trans {t'' : Tree} (h : t.SameNodes t') (h' : t'.SameNodes t'') : t.SameNodes t'' :=
  fun j => (h' j).trans (h j)

theorem place (t : Tree) (id : Nat) (f : Node → Extent) :
    t.SameNodes (t.modify id fun n => { n with extent := f n }) :=
  fun _ => map_node?_modify _ fun _ _ => rfl

theorem map_eq {α : Type} (h : t.SameNodes t') (g : NodeContent × Option Nat → α) (j : Nat) :
    (t'.node? j).map (fun n => g (n.content, n.parent)) =
      (t.node? j).map fun n => g (n.content, n.parent) := by
  simpa only [Option.map_map, Function.comp_def] using congrArg (Option.map g) (h j)

theorem children (h : t.SameNodes t') (j : Nat) : t'.children j = t.children j := by
  have := h.map_eq (fun n => (Node.mk n.1 n.2 default).children) j
  exact congrArg (fun x => x.getD #[]) this

theorem parent? (h : t.SameNodes t') (j : Nat) : t'.parent? j = t.parent? j := by
  rw [parent?_eq_join, parent?_eq_join]
  exact congrArg Option.join (h.map_eq Prod.snd j)

theorem label? (h : t.SameNodes t') (j : Nat) : t'.label? j = t.label? j := by
  rw [label?_eq_join, label?_eq_join]
  exact congrArg Option.join
    (h.map_eq (fun n => (Node.mk n.1 n.2 default).element?.map Element.label) j)

theorem canHold (h : t.SameNodes t') (j : Nat) : t'.canHold j = t.canHold j := by
  have := h.map_eq (fun n => (Node.mk n.1 n.2 default).canHold) j
  rw [Tree.canHold, Tree.canHold]
  cases hn : t.node? j <;> cases hn' : t'.node? j <;> simp_all [Node.canHold]

theorem size (h : t.SameNodes t') : t'.size = t.size := by
  have hlt : ∀ j, j < t'.size ↔ j < t.size := fun j => by
    have := congrArg Option.isSome (h j)
    rw [Option.isSome_map, Option.isSome_map] at this
    rw [← node?_isSome, ← node?_isSome, this]
  exact Nat.le_antisymm (Nat.not_lt.1 fun hlt' => Nat.lt_irrefl _ ((hlt _).1 hlt'))
    (Nat.not_lt.1 fun hlt' => Nat.lt_irrefl _ ((hlt _).2 hlt'))

end SameNodes

namespace Laid

theorem congr (h : t.Laid opened) (hs : t.SameNodes t') : t'.Laid opened where
  linked := h.linked.congr hs.size hs.parent? hs.children
  root := ⟨(hs.canHold _).trans h.root.1, (hs.label? _).trans h.root.2⟩
  spine := h.spine.congr hs.children
  opens id hid := by
    rw [hs.label?]
    exact h.opens id hid
  ends := h.ends.congr hs.children hs.label?

/-- The innermost element is closed. -/
theorem pop (h : t.Laid (id :: outer)) : t.Laid outer :=
  { h with
    spine := h.spine.2
    opens := fun j hj => h.opens j (List.mem_cons_of_mem id hj) }

theorem ofRoot (extent : Extent) : (Tree.ofRoot extent).Laid [] where
  linked := (NestedUpTo.ofRoot 0 extent).linked
  root := ⟨rfl, rfl⟩
  spine := trivial
  opens := by simp
  ends := by
    have hnone : ∀ id, (Tree.ofRoot extent).label? id = none := fun id =>
      Option.map_eq_none_iff.2 (Option.map_eq_none_iff.1 (tagSpans?_ofRoot extent id))
    refine ⟨fun p i c hc => ?_, fun id x hx => ?_, fun id x hx => ?_⟩
    · simp [children_ofRoot] at hc
    · exact absurd ((hnone id).symm.trans hx) nofun
    · exact absurd ((hnone id).symm.trans hx) nofun

theorem canHold_tip (h : t.Laid opened) : t.canHold (tip opened) = true := by
  cases opened with
  | nil => exact h.root.1
  | cons id outer =>
    obtain ⟨x, hx, -⟩ := h.opens id (List.mem_cons_self ..)
    exact canHold_of_label hx

/-- An element without content is not open. -/
theorem not_isVoid_tip {x : Label} (h : t.Laid opened) (hx : t.label? (tip opened) = some x) :
    ¬ x.IsVoid := by
  cases opened with
  | nil => exact absurd (h.root.2.symm.trans hx) nofun
  | cons id outer =>
    obtain ⟨y, hy, -, hnot⟩ := h.opens id (List.mem_cons_self ..)
    obtain rfl := Option.some.inj (hy.symm.trans hx)
    exact hnot

/-- A node is added.  If it is an element whose start tag implies the end of the one around it, it has
closed the element in front of it. -/
theorem append (h : t.Laid opened) (hc : (Node.mk content (some (tip opened)) extent).children = #[])
    (hlower : ∀ e, content = .element e → e.ns = .html → e.name = e.rawName.toLower)
    (himplied : ∀ e y, content = .element e → t.label? (tip opened) = some y →
      y.EndsAt e.rawName.toLower → ∃ d z, (t.children (tip opened)).back? = some d ∧
        t.label? d = some z ∧ z.EndsAt e.rawName.toLower ∧ z.ended = false) :
    (t.append (tip opened) content extent).Laid opened := by
  have hhold := h.canHold_tip
  have hroot : Tree.root ≠ t.size := Nat.ne_of_lt h.linked.size
  have hself : (t.append (tip opened) content extent).children t.size = #[] := by
    rw [children_eq (node?_append_self ..), hc]
  refine ⟨h.linked.append hhold hc, ⟨(canHold_append hroot).trans h.root.1,
    (label?_append hroot).trans h.root.2⟩, (h.spine.append h.linked hhold).2, fun j hj => ?_,
    h.ends.behind_append h.linked hhold hself himplied, fun j x hx hns => ?_, fun j x hx hvoid => ?_⟩
  · rw [label?_append (Nat.ne_of_lt (h.spine.lt_size h.linked hj).2)]
    exact h.opens j hj
  · by_cases hj : j = t.size
    · subst hj
      obtain ⟨e, he, rfl⟩ := exists_element_of_label hx
      exact hlower e he hns
    · exact h.ends.lower j x ((label?_append hj).symm.trans hx) hns
  · by_cases hj : j = t.size
    · rw [hj, hself]
    · rw [label?_append hj] at hx
      have hne : tip opened ≠ j := by
        rintro rfl
        exact h.not_isVoid_tip hx hvoid
      rw [children_append_of_ne hj hne]
      exact h.ends.void j x hx hvoid

/-- The element that was added is open. -/
theorem push {x : Label} (h : t.Laid opened) (hspine : t.Spine (id :: opened))
    (hx : t.label? id = some x) (hended : x.ended = false) (hvoid : ¬ x.IsVoid) :
    t.Laid (id :: opened) :=
  { h with
    spine := hspine
    opens := List.forall_mem_cons.2 ⟨⟨x, hx, hended, hvoid⟩, h.opens⟩ }

end Laid

theorem Spine.drop {inner : List Nat} (h : t.Spine (inner ++ outer)) : t.Spine outer := by
  induction inner with
  | nil => exact h
  | cons id inner ih => exact ih h.2

/-- An open element is the last child of its parent. -/
theorem Spine.no_next (h : t.Spine (id :: outer)) (hl : t.Linked)
    (hd : (t.children p)[j]? = some id) : (t.children p)[j + 1]? = none := by
  have hp := (hl.child p id (Array.mem_of_getElem? hd)).1
  obtain rfl : p = tip outer := Option.some.inj (hp.symm.trans (hl.child _ _ h.mem_children).1)
  have hback := h.1
  rw [Array.back?_eq_getElem?, ← hd, ← Array.getElem?_toList, ← Array.getElem?_toList] at hback
  rw [Array.getElem?_eq_none_iff]
  by_contra hlt
  have := (List.getElem?_inj (by simpa using by omega) (hl.distinct _)).1 hback
  omega

/-- An open element gets an end tag, and is closed with all inside it. -/
theorem Laid.endAt {inner : List Nat} (h : t.Laid (inner ++ id :: outer)) (tag : Extent) :
    (t.modifyElement id fun e => { e with endTag := some tag }).Laid outer := by
  have hmem : id ∈ inner ++ id :: outer := List.mem_append_right _ (List.mem_cons_self ..)
  have hroot : id ≠ Tree.root := Nat.ne_of_gt (h.spine.lt_size h.linked hmem).1
  have hlast : t.Spine (id :: outer) := h.spine.drop
  have hout : id ∉ outer := fun hin => Nat.lt_irrefl id ((hlast.lt h.linked).2.2 id hin)
  have hlabel : ∀ j, id ≠ j →
      (t.modifyElement id fun e => { e with endTag := some tag }).label? j = t.label? j := fun j hj => by
    rw [label?_setEndTag, if_neg hj]
  have hchildren : ∀ j, (t.modifyElement id fun e => { e with endTag := some tag }).children j =
      t.children j := fun j => children_modify fun n => by
    obtain ⟨content, parent, extent⟩ := n
    cases content <;> rfl
  have hparent : ∀ j, (t.modifyElement id fun e => { e with endTag := some tag }).parent? j =
      t.parent? j := fun j => parent?_modify fun n => by
    obtain ⟨content, parent, extent⟩ := n
    cases content <;> rfl
  have hcanHold : (t.modifyElement id fun e => { e with endTag := some tag }).canHold Tree.root =
      t.canHold Tree.root := by
    rw [canHold, modifyElement, node?_modify_of_ne hroot]
    rfl
  have hnames : ∀ j, ((t.modifyElement id fun e => { e with endTag := some tag }).label? j).map
      Label.named = (t.label? j).map Label.named := fun j => by
    rw [label?_setEndTag]
    split
    · rw [Option.map_map]
      rfl
    · rfl
  have hsize : (t.modifyElement id fun e => { e with endTag := some tag }).size = t.size :=
    size_modify ..
  generalize t.modifyElement id (fun e => { e with endTag := some tag }) = t' at *
  refine ⟨h.linked.congr hsize hparent hchildren, ⟨hcanHold.trans h.root.1,
    (hlabel _ hroot).trans h.root.2⟩, hlast.2.congr hchildren, fun j hj => ?_,
    fun q i c hc himplied => ?_, fun j x hx hns => ?_, fun j x hx hvoid => ?_⟩
  · rw [hlabel j (ne_of_mem_of_not_mem hj hout).symm]
    exact h.opens j (List.mem_append_right _ (List.mem_cons_of_mem id hj))
  · rw [hchildren] at hc ⊢
    rw [impliesEnd_congr hnames] at himplied
    obtain ⟨j, d, rfl, hd, hended, hopen⟩ := h.ends.behind q i c hc himplied
    refine ⟨j, d, rfl, hd, (impliesEnd_congr hnames).2 hended, ?_⟩
    have hne : id ≠ d := by
      rintro rfl
      rw [hlast.no_next h.linked hd] at hc
      simp at hc
    rw [leftOpen_iff, hlabel d hne, ← leftOpen_iff]
    exact hopen
  · obtain ⟨y, hy, hyx⟩ := Option.map_eq_some_iff.1 ((hnames j).symm.trans (congrArg _ hx))
    obtain ⟨hname, hraw, hns'⟩ := Label.named_eq_iff.1 hyx
    rw [← hname, ← hraw]
    exact h.ends.lower j y hy (hns'.trans hns)
  · obtain ⟨y, hy, hyx⟩ := Option.map_eq_some_iff.1 ((hnames j).symm.trans (congrArg _ hx))
    obtain ⟨hname, -, hns⟩ := Label.named_eq_iff.1 hyx
    rw [hchildren]
    exact h.ends.void j y hy ⟨hns.trans hvoid.1, by rw [hname]; exact hvoid.2⟩

end Tree

/-! ## The tree builder -/

namespace Builder

open TemplateSyntax.Tree (tip)

variable {b : Builder} {id : Nat} {outer : List Nat}

/-- What holds of the builder's tree and its open elements. -/
def Laid (b : Builder) : Prop := b.tree.Laid b.opened

theorem closeElement_sameNodes (b : Builder) (id : Nat) :
    b.tree.SameNodes (b.closeElement id).tree := by
  unfold closeElement
  dsimp only
  cases b.tree.element? id with
  | none => split <;> exact .refl _
  | some e => split <;> exact .place _ id _

/-- Closing elements changes their places. -/
theorem closeInnermost_sameNodes (b : Builder) (count : Nat) :
    b.tree.SameNodes (b.closeInnermost count).tree ∧
      (b.closeInnermost count).opened = b.opened.drop count := by
  induction count generalizing b with
  | zero => exact ⟨.refl _, rfl⟩
  | succ count ih =>
    cases ho : b.opened with
    | nil =>
      rw [closeInnermost_nil ho, ho]
      exact ⟨.refl _, rfl⟩
    | cons id outer =>
      rw [closeInnermost_cons ho, List.drop_succ_cons]
      obtain ⟨hsame, hopened⟩ := ih ({ b with opened := outer }.closeElement id)
      rw [closeElement_opened] at hopened
      exact ⟨(closeElement_sameNodes { b with opened := outer } id).trans hsame, hopened⟩

/-- What closes the innermost element leaves one that may hold the start tag, unless the one that was
closed is its last child. -/
theorem Laid.closeImplied (h : b.Laid) (name : String) :
    (b.closeImplied name).Laid ∧ ∀ y,
      (b.closeImplied name).tree.label? (b.closeImplied name).current = some y → y.EndsAt name →
        ∃ d z, ((b.closeImplied name).tree.children (b.closeImplied name).current).back? = some d ∧
          (b.closeImplied name).tree.label? d = some z ∧ z.EndsAt name ∧ z.ended = false := by
  unfold Builder.closeImplied
  split
  · next id outer e ho he =>
    have hlaid : b.tree.Laid (id :: outer) := ho ▸ h
    have hlabel : b.tree.label? id = some e.label := by
      rw [currentElement?, ho] at he
      rw [Tree.label?, show b.tree.element? id = some e from he]
      rfl
    split
    · next hends =>
      obtain ⟨hns, hends⟩ := Bool.and_eq_true_iff.1 hends
      have hsame := closeElement_sameNodes { b with opened := outer } id
      have hopened : ({ b with opened := outer }.closeElement id).opened = outer :=
        closeElement_opened _ id
      have hcurrent : ({ b with opened := outer }.closeElement id).syncNamespace.current =
          tip outer := by
        show tip ({ b with opened := outer }.closeElement id).opened = tip outer
        rw [hopened]
      rw [hcurrent]
      refine ⟨?_, fun y _ _ => ⟨id, e.label, ?_, ?_, ⟨eq_of_beq hns, hends⟩, ?_⟩⟩
      · show Tree.Laid _ ({ b with opened := outer }.closeElement id).opened
        rw [hopened]
        exact hlaid.pop.congr hsame
      · exact (congrArg Array.back? (hsame.children _)).trans hlaid.spine.1
      · exact (hsame.label? id).trans hlabel
      · obtain ⟨x, hx, hended, -⟩ := hlaid.opens id (List.mem_cons_self ..)
        obtain rfl := Option.some.inj (hx.symm.trans hlabel)
        exact hended
    · next hends =>
      refine ⟨h, fun y hy hyends => absurd ?_ hends⟩
      rw [current, ho] at hy
      obtain rfl := Option.some.inj (hlabel.symm.trans hy)
      exact Bool.and_eq_true_iff.2 ⟨beq_iff_eq.2 hyends.1, hyends.2⟩
  · next hnone =>
    refine ⟨h, fun y hy _ => ?_⟩
    cases ho : b.opened with
    | nil =>
      rw [current, ho] at hy
      exact absurd (h.root.2.symm.trans hy) nofun
    | cons id outer =>
      rw [current, ho] at hy
      obtain ⟨e, he, -⟩ := Option.map_eq_some_iff.1 hy
      exact absurd (by rw [currentElement?, ho]; exact he) (hnone id outer e ho)

theorem Laid.onStartTag (h : b.Laid) (tag : StartTag) : (b.onStartTag tag).Laid := by
  unfold Builder.onStartTag
  dsimp only
  have himplied := h.closeImplied tag.rawName.toLower
  generalize b.closeImplied tag.rawName.toLower = b₀ at himplied
  generalize ElementClass.namespaceOf b₀.currentElement? tag.rawName.toLower tag = ns
  have hdraft := checkNamespaces_draft b₀ ns (tag.attributes.map (plainAttribute ns))
  generalize b₀.checkNamespaces ns (tag.attributes.map (plainAttribute ns)) = b₁ at hdraft
  have htree : b₁.tree = b₀.tree := congrArg Draft.tree hdraft
  have hopened : b₁.opened = b₀.opened := congrArg Draft.opened hdraft
  have hcurrent : b₁.current = b₀.current := by rw [current, current, hopened]
  generalize hnew : Element.mk _ _ _ _ _ _ _ _ _ = e
  have hparts : e.children = #[] ∧ e.rawName = tag.rawName ∧ e.ns = ns ∧
      e.name = ns.elementName tag.rawName ∧ e.endTag = none := by
    rw [← hnew]
    exact ⟨rfl, rfl, rfl, rfl, rfl⟩
  obtain ⟨hchildren, hraw, hns, hname, hend⟩ := hparts
  have hadded : (b₁.tree.append b₁.current (.element e) tag.extent).Laid b₁.opened := by
    rw [htree, hopened, hcurrent]
    refine himplied.1.append hchildren (fun e' he' hhtml => ?_) fun e' y he' hy hyends => ?_
    · obtain rfl := NodeContent.element.inj he'
      rw [hname, hraw, ← hns, hhtml]
      rfl
    · obtain rfl := NodeContent.element.inj he'
      rw [hraw] at hyends ⊢
      exact himplied.2 y hy hyends
  have hspine : (b₁.tree.append b₁.current (.element e) tag.extent).Spine
      (b₁.tree.size :: b₁.opened) := by
    have hlaid : b₁.Laid := by
      rw [Laid, htree, hopened]
      exact himplied.1
    exact hlaid.spine.append hlaid.linked hlaid.canHold_tip
  have hlabel : (b₁.tree.append b₁.current (.element e) tag.extent).label? b₁.tree.size =
      some e.label := Tree.label?_append_self
  obtain ⟨found, -, hscheduled⟩ := scheduleDirectives_draft (b₁.addNode (.element e) tag.extent)
    b₁.tree.size (ns.elementName tag.rawName) (tag.attributes.map (plainAttribute ns))
  generalize (b₁.addNode (.element e) tag.extent).scheduleDirectives _ _ _ = b₂ at hscheduled ⊢
  have htree₂ : b₂.tree = b₁.tree.append b₁.current (.element e) tag.extent :=
    congrArg Draft.tree hscheduled
  have hopened₂ : b₂.opened = b₁.opened := congrArg Draft.opened hscheduled
  rw [← htree₂] at hadded hspine hlabel
  split
  · show Tree.Laid _ (b₂.closeElement b₁.tree.size).opened
    rw [closeElement_opened, hopened₂]
    exact hadded.congr (closeElement_sameNodes b₂ _)
  · next hopens =>
    show b₂.tree.Laid (b₁.tree.size :: b₂.opened)
    rw [hopened₂]
    refine hadded.push hspine hlabel (by rw [Element.label, hend]; rfl) fun hvoid => hopens ?_
    rw [Bool.or_eq_true_iff, Bool.and_eq_true_iff]
    exact .inr ⟨beq_iff_eq.2 (hns.symm.trans hvoid.1), hname ▸ hvoid.2⟩

theorem Laid.onEndTag (h : b.Laid) (tag : EndTag) : (b.onEndTag tag).Laid := by
  unfold Builder.onEndTag
  split
  · next depth target hdepth htarget =>
    obtain ⟨inner, outer, ho, rfl⟩ := exists_append_of_find hdepth htarget
    have hlaid : b.tree.Laid (inner ++ target :: outer) := ho ▸ h
    obtain ⟨hsame, hopened⟩ := closeInnermost_sameNodes
      { b with tree := b.tree.modifyElement target fun e => { e with endTag := some tag.extent } }
      (inner.length + 1)
    have houter : b.opened.drop (inner.length + 1) = outer := by
      rw [ho, show inner ++ target :: outer = (inner ++ [target]) ++ outer by simp,
        List.drop_left' (by simp)]
    show Tree.Laid _ (closeInnermost _ (inner.length + 1)).opened
    rw [hopened]
    show Tree.Laid _ (b.opened.drop (inner.length + 1))
    rw [houter]
    exact (hlaid.endAt tag.extent).congr hsame
  · exact h

/-- A text or a mustache is added. -/
theorem Laid.addLeaf (h : b.Laid) {content : NodeContent} {extent : Extent}
    (hc : (Node.mk content (some b.current) extent).children = #[])
    (hleaf : ∀ e, content ≠ .element e) : (b.addNode content extent).Laid :=
  h.append hc (fun e he => absurd he (hleaf e)) fun e _ he => absurd he (hleaf e)

/-- Whatever unit is taken, no end is implied but where a sibling was closed. -/
theorem Laid.onUnit (h : b.Laid) (u : MarkupUnit) : (b.onUnit u).Laid := by
  have hlogged : (if b.lexer.tracing then b.logged (.pulled b.opened.length u.extent.span)
      else b).Laid := by
    split <;> exact h
  unfold Builder.onUnit
  dsimp only
  generalize (if b.lexer.tracing then b.logged (.pulled b.opened.length u.extent.span) else b) =
    b₀ at hlogged
  cases u with
  | startTag tag => exact hlogged.onStartTag tag
  | endTag tag => exact hlogged.onEndTag tag
  | text run => exact hlogged.addLeaf rfl nofun
  | mustache m => exact hlogged.addLeaf rfl nofun

theorem Laid.drain (h : b.Laid) : b.drain.Laid := by
  have hunits : ∀ (units : List MarkupUnit) {b : Builder}, b.Laid →
      (units.foldl Builder.onUnit b).Laid := by
    intro units
    induction units with
    | nil => exact id
    | cons u units ih => exact fun h => ih (h.onUnit u)
  unfold Builder.drain
  simp only [← Array.foldl_toList]
  exact hunits _ h

theorem Laid.run (h : b.Laid) (fuel : Nat) : (run fuel b).Laid := by
  induction fuel generalizing b with
  | zero => exact h
  | succ fuel ih =>
    rw [Builder.run]
    split
    · exact ih (drain (by exact h))
    · exact drain (by exact h)

end Builder

/-! ## Templates -/

namespace Template

variable (text : String) (o : Options) (reader : Script.Reader)

theorem builderOf_endsImplied : (builderOf text o).tree.EndsImplied := by
  have hstart : (Builder.ofChars text.toList (locatorOf text o) o.tracing).Laid := .ofRoot _
  have hrun := hstart.run (Outline.tokenBound (Builder.ofChars text.toList (locatorOf text o)
    o.tracing).lexer)
  unfold builderOf
  generalize Builder.run _ _ = b at hrun
  have hclosed := Tree.Laid.ends hrun |>.congr (b.closeInnermost_sameNodes b.opened.length).1.children
    (b.closeInnermost_sameNodes b.opened.length).1.label?
  have hplaced : b.closeAll.tree.SameNodes b.closeAll.placeRoot.tree := .place _ _ _
  exact hclosed.congr hplaced.children hplaced.label?

theorem parse_endsImplied : (parse text o reader).tree.EndsImplied := by
  have hend := builderOf_endsImplied text o
  rw [← outlineOf_tree] at hend
  refine hend.congr (sameShape_parse text o).children fun j => ?_
  rw [Tree.label?_eq_shell, parse_shell?, ← Tree.label?_eq_shell]

/-- Implied end tags leave implied nesting behind in one case: in an element other than a `p`, behind a
`p` that was left open, and where each child from there on ended the one before it. -/
theorem parse_impliedNesting {p k c : Nat}
    (hc : ((parse text o reader).tree.children p)[k]? = some c)
    (himplied : (parse text o reader).tree.ImpliesEnd c p) :
    (∃ e, (parse text o reader).tree.element? p = some e ∧ e.name ≠ "p" ∧ e.name ≠ "source") ∧
      (parse text o reader).tree.BehindOpenParagraph p k :=
  (parse_endsImplied text o reader).behindOpenParagraph hc himplied

/-- A list whose items are all left open, with a `p` in the first one. -/
def openItems : String := "<li><p><li>"

/-- The second item stands in the first one. -/
theorem openItems_nested : ((parse openItems {}).tree.children 1)[1]? = some 3 ∧
    (parse openItems {}).tree.ImpliesEnd 3 1 := by
  have hlabels : (parse openItems {}).tree.label? 3 = some ⟨"li", "li", .html, false⟩ ∧
      (parse openItems {}).tree.label? 1 = some ⟨"li", "li", .html, false⟩ := by decide +kernel
  exact ⟨by decide +kernel,
    Tree.impliesEnd_iff.2 ⟨_, _, hlabels.1, hlabels.2, rfl, by decide +kernel⟩⟩

/-- Implied nesting is left behind, then. -/
theorem not_noImpliedNesting : ¬ (parse openItems {}).tree.NoImpliedNesting := by
  obtain ⟨hc, himplied⟩ := openItems_nested
  exact fun h => h 1 3 (Array.mem_of_getElem? hc) himplied

theorem parse_impliedNesting_openItems :
    ((parse openItems {}).tree.children 1)[1]? = some 3 ∧ (parse openItems {}).tree.ImpliesEnd 3 1 ∧
      (parse openItems {}).tree.BehindOpenParagraph 1 1 := by
  obtain ⟨hc, himplied⟩ := openItems_nested
  exact ⟨hc, himplied, (parse_impliedNesting openItems {} Script.parse hc himplied).2⟩

end Template
end TemplateSyntax
