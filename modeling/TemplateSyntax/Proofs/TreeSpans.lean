import TemplateSyntax.Proofs.SpanOrder
import TemplateSyntax.Tree.Basic

/-! # The spans of a tree

What the ranges of a tree depend on: the span of each node, the spans of the tags of elements and
of the attributes in them, and who is whose child.  There is one lemma for each change of a tree
and each of these. -/

namespace TemplateSyntax

/-- The spans of the tags of an element, and of the attributes in the start tag. -/
structure TagSpans where
  start : Span
  attributes : List Span
  stop : Option Span

namespace Element

/-- Where the tags of an element are. -/
def tagSpans (e : Element) : TagSpans :=
  ⟨e.startTag.span, e.attributes.toList.map fun a => a.extent.span, e.endTag.map Extent.span⟩

end Element

namespace Tree

/-- The span of a node. -/
def spanOf (t : Tree) (id : Nat) : Span :=
  ((t.node? id).map fun n => n.extent.span).getD (Span.empty 0)

/-- Where the tags of a node are, if it is an element. -/
def tagSpans? (t : Tree) (id : Nat) : Option TagSpans := (t.element? id).map Element.tagSpans

/-- The spans of the children of a node, in order. -/
def childSpans (t : Tree) (id : Nat) : List Span := (t.children id).toList.map t.spanOf

variable {t : Tree} {id j p : Nat} {f : Node → Node} {n : Node} {content : NodeContent}
  {extent : Extent}

theorem spanOf_eq (h : t.node? id = some n) : t.spanOf id = n.extent.span := by
  simp [spanOf, h]

theorem children_eq (h : t.node? id = some n) : t.children id = n.children := by
  simp [children, h]

theorem element?_eq (h : t.node? id = some n) : t.element? id = n.element? := by
  simp [element?, h]

theorem element?_eq_some {t : Tree} {id : Nat} {e : Element} :
    t.element? id = some e ↔ ∃ n, t.node? id = some n ∧ n.content = .element e := by
  rw [element?, Option.bind_eq_some_iff]
  refine exists_congr fun n => and_congr_right fun _ => ?_
  unfold Node.element?
  split
  · next e' heq => simp [heq]
  · next hne =>
    simp only [reduceCtorEq, false_iff]
    exact fun heq => hne e heq

theorem node?_isSome : (t.node? id).isSome = true ↔ id < t.size := by
  simp [node?, size]

theorem lt_size (h : t.node? id = some n) : id < t.size :=
  node?_isSome.1 (by simp [h])

theorem exists_node (h : id < t.size) : ∃ n, t.node? id = some n :=
  Option.isSome_iff_exists.1 (node?_isSome.2 h)

/-! ## A node is changed -/

theorem modify_append_length {α : Type} {xs ys : List α} {y : α} {f : α → α} :
    (xs ++ y :: ys).modify xs.length f = xs ++ f y :: ys := by
  induction xs with
  | nil => rfl
  | cons x xs ih => simp [ih]

theorem node?_modify :
    (t.modify id f).node? j = if id = j then (t.node? j).map f else t.node? j := by
  simp only [node?, modify, Array.getElem?_modify]

theorem node?_modify_self (h : t.node? id = some n) : (t.modify id f).node? id = some (f n) := by
  rw [node?_modify, if_pos rfl, h, Option.map_some]

theorem node?_modify_of_ne (h : id ≠ j) : (t.modify id f).node? j = t.node? j := by
  rw [node?_modify, if_neg h]

/-- What is the same for a node before and after a change is the same in the whole tree. -/
theorem map_node?_modify {α : Type} (g : Node → α) (h : ∀ n, t.node? id = some n → g (f n) = g n) :
    ((t.modify id f).node? j).map g = (t.node? j).map g := by
  rw [node?_modify]
  split
  · next hj =>
    subst hj
    cases hn : t.node? id with
    | none => rfl
    | some n => simp [h n hn]
  · rfl

/-- What holds of all nodes, and of the one that is changed, holds of all nodes of the new tree. -/
theorem forall_modify {t : Tree} {id : Nat} {f : Node → Node} {P : Nat → Node → Prop}
    (h : ∀ j n, t.node? j = some n → P j n)
    (hf : ∀ n, t.node? id = some n → P id n → P id (f n)) :
    ∀ j n, (t.modify id f).node? j = some n → P j n := by
  intro j n hn
  rw [node?_modify] at hn
  split at hn
  · next hj =>
    subst hj
    obtain ⟨n₀, hn₀, rfl⟩ := Option.map_eq_some_iff.1 hn
    exact hf n₀ hn₀ (h id n₀ hn₀)
  · exact h j n hn

theorem element?_modifyElement (t : Tree) (id j : Nat) (f : Element → Element) :
    (t.modifyElement id f).element? j =
      if id = j then (t.element? j).map f else t.element? j := by
  rw [element?, element?, modifyElement, node?_modify]
  split
  · cases t.node? j with
    | none => rfl
    | some n =>
      obtain ⟨content, parent, extent⟩ := n
      cases content <;> rfl
  · rfl

theorem children_modify (h : ∀ n, (f n).children = n.children) :
    (t.modify id f).children j = t.children j := by
  rw [children, children, map_node?_modify _ fun n _ => h n]

theorem spanOf_modify (h : ∀ n, (f n).extent.span = n.extent.span) :
    (t.modify id f).spanOf j = t.spanOf j := by
  rw [spanOf, spanOf, map_node?_modify _ fun n _ => h n]

theorem parent?_eq_join (t : Tree) (id : Nat) : t.parent? id = ((t.node? id).map Node.parent).join := by
  rw [parent?]
  cases t.node? id <;> rfl

theorem parent?_modify (h : ∀ n, (f n).parent = n.parent) :
    (t.modify id f).parent? j = t.parent? j := by
  rw [parent?_eq_join, parent?_eq_join, map_node?_modify _ fun n _ => h n]

theorem element?_eq_join (t : Tree) (id : Nat) :
    t.element? id = ((t.node? id).map Node.element?).join := by
  rw [element?]
  cases t.node? id <;> rfl

theorem element?_modify (h : ∀ n, (f n).element? = n.element?) :
    (t.modify id f).element? j = t.element? j := by
  rw [element?_eq_join, element?_eq_join, map_node?_modify _ fun n _ => h n]

theorem tagSpans?_eq_join (t : Tree) (id : Nat) :
    t.tagSpans? id = ((t.node? id).map fun n => n.element?.map Element.tagSpans).join := by
  rw [tagSpans?, element?]
  cases t.node? id <;> rfl

theorem tagSpans?_modify (h : ∀ n, (f n).element?.map Element.tagSpans =
    n.element?.map Element.tagSpans) : (t.modify id f).tagSpans? j = t.tagSpans? j := by
  rw [tagSpans?_eq_join, tagSpans?_eq_join, map_node?_modify _ fun n _ => h n]

/-- An end tag is put down in one element. -/
theorem tagSpans?_setEndTag (t : Tree) (id j : Nat) (tag : Extent) :
    (t.modifyElement id fun e => { e with endTag := some tag }).tagSpans? j =
      if id = j then (t.tagSpans? j).map fun x => { x with stop := some tag.span }
      else t.tagSpans? j := by
  split
  · next hj =>
    subst hj
    rw [tagSpans?, tagSpans?, element?, element?, modifyElement, node?_modify, if_pos rfl]
    cases hn : t.node? id with
    | none => rfl
    | some n =>
      cases hc : n.content <;> simp [Node.mapElement, Node.element?, hc, Element.tagSpans]
  · next hj =>
    rw [tagSpans?, tagSpans?, element?, element?, modifyElement, node?_modify_of_ne hj]

/-! ## A node is added -/

theorem node?_append_self (t : Tree) (p : Nat) (content : NodeContent) (extent : Extent) :
    (t.append p content extent).node? t.size = some ⟨content, some p, extent⟩ := by
  have hs : (t.modify p fun n => n.addChild t.size).nodes.size = t.size := size_modify t p _
  rw [append, node?, Array.getElem?_push, hs, if_pos rfl]

theorem node?_append (hj : j ≠ t.size) : (t.append p content extent).node? j =
    (t.modify p fun n => n.addChild t.size).node? j := by
  have hs : (t.modify p fun n => n.addChild t.size).nodes.size = t.size := size_modify t p _
  rw [append, node?, Array.getElem?_push, hs, if_neg hj]
  rfl

theorem addChild_parent (n : Node) (c : Nat) : (n.addChild c).parent = n.parent := by
  unfold Node.addChild
  split <;> rfl

theorem addChild_extent (n : Node) (c : Nat) : (n.addChild c).extent = n.extent := by
  unfold Node.addChild
  split <;> rfl

theorem addChild_tagSpans (n : Node) (c : Nat) :
    (n.addChild c).element?.map Element.tagSpans = n.element?.map Element.tagSpans := by
  unfold Node.addChild
  split
  · next hc => simp [Node.element?, hc]
  · next e hc => simp [Node.element?, hc, Element.tagSpans]
  · rfl

theorem addChild_children (h : n.canHold = true) (c : Nat) :
    (n.addChild c).children = n.children.push c := by
  unfold Node.canHold at h
  unfold Node.addChild Node.children
  split at h
  · simp
  · simp
  · simp at h

theorem addChild_canHold (n : Node) (c : Nat) : (n.addChild c).canHold = n.canHold := by
  rw [Node.canHold.eq_def n]
  unfold Node.addChild
  split
  · rfl
  · rfl
  · next h1 h2 =>
    unfold Node.canHold
    split
    · next cs hc => exact absurd hc (h1 cs)
    · next e hc => exact absurd hc (h2 e)
    · rfl

theorem canHold_append (hj : j ≠ t.size) :
    (t.append p content extent).canHold j = t.canHold j := by
  have hany : ∀ t : Tree, t.canHold j = (((t.node? j).map Node.canHold).getD false) := by
    intro t
    rw [canHold]
    cases t.node? j <;> rfl
  rw [hany, hany, node?_append hj, map_node?_modify _ fun n _ => addChild_canHold n _]

theorem parent?_append (hj : j ≠ t.size) : (t.append p content extent).parent? j = t.parent? j := by
  rw [parent?, node?_append hj]
  exact parent?_modify fun n => addChild_parent n _

theorem spanOf_append (hj : j ≠ t.size) : (t.append p content extent).spanOf j = t.spanOf j := by
  rw [spanOf, node?_append hj]
  exact spanOf_modify fun n => by rw [addChild_extent]

theorem tagSpans?_append (hj : j ≠ t.size) :
    (t.append p content extent).tagSpans? j = t.tagSpans? j := by
  rw [tagSpans?, element?, node?_append hj]
  exact tagSpans?_modify fun n => addChild_tagSpans n _

theorem children_append_of_ne (hj : j ≠ t.size) (hp : p ≠ j) :
    (t.append p content extent).children j = t.children j := by
  rw [children, node?_append hj, node?_modify_of_ne hp]
  rfl

theorem children_append_parent (h : t.canHold p = true) :
    (t.append p content extent).children p = (t.children p).push t.size := by
  obtain ⟨n, hn, hc⟩ : ∃ n, t.node? p = some n ∧ n.canHold = true := by
    simpa [canHold, Option.any_eq_true] using h
  have hne : p ≠ t.size := Nat.ne_of_lt (lt_size hn)
  rw [children, node?_append hne, node?_modify_self hn, children_eq hn]
  exact addChild_children hc _

end Tree
end TemplateSyntax
