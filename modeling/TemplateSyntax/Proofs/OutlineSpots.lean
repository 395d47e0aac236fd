import TemplateSyntax.Proofs.Spots
import TemplateSyntax.Proofs.Takes
import TemplateSyntax.Proofs.TokensApart
import TemplateSyntax.Proofs.TreeEdits

/-! # The spots of an outline

Each offset in the tree of an outline is one of the template.  The units that the tree builder takes
were read from tokens, which lie in the template; the builder puts their places into the tree, and
the end of an element is one of them. -/

namespace TemplateSyntax

open Spotted (spots)
open Text (byteLength)

/-- All offsets lie between `lo` and `hi`. -/
def Spotted.Within {α : Type} [Spotted α] (lo hi : Nat) (x : α) : Prop :=
  ∀ s ∈ spots x, lo ≤ s.offset ∧ s.offset ≤ hi

open Spotted (Within)

variable {lo hi : Nat}

theorem within_extent {e : Extent} : Within lo hi e ↔
    (lo ≤ e.span.start ∧ e.span.start ≤ hi) ∧ lo ≤ e.span.stop ∧ e.span.stop ≤ hi := by
  simp [Within, spots]

theorem within_list {α : Type} [Spotted α] {xs : List α} :
    Within lo hi xs ↔ ∀ x ∈ xs, Within lo hi x := by
  simp only [Within, spots, List.mem_flatMap]
  exact ⟨fun h x hx s hs => h s ⟨x, hx, hs⟩, fun h s ⟨x, hx, hs⟩ => h x hx s hs⟩

theorem within_array {α : Type} [Spotted α] {xs : Array α} :
    Within lo hi xs ↔ ∀ x ∈ xs, Within lo hi x := by
  have hlist : Within lo hi xs ↔ Within lo hi xs.toList := Iff.rfl
  simp only [hlist, within_list, Array.mem_toList_iff]

theorem within_option {α : Type} [Spotted α] {x : Option α} :
    Within lo hi x ↔ ∀ y, x = some y → Within lo hi y := by
  cases x with
  | none => simp [Within, spots]
  | some x => simp [Within, spots]

theorem within_element {e : Element} : Within lo hi e ↔
    ((Within lo hi e.attributes ∧ Within lo hi e.startTag) ∧ Within lo hi e.endTag) ∧
      Within lo hi e.bindings := by
  simp only [Within, spots, List.forall_mem_append]

theorem within_node {n : Node} :
    Within lo hi n ↔ Within lo hi n.content ∧ Within lo hi n.extent := by
  simp only [Within, spots, List.forall_mem_append]

theorem within_tree {t : Tree} : Within lo hi t ↔ ∀ id n, t.node? id = some n → Within lo hi n := by
  have hnodes : Within lo hi t ↔ Within lo hi t.nodes := Iff.rfl
  rw [hnodes, within_array]
  refine ⟨fun h id n hn => h n (Array.mem_of_getElem? hn), fun h n hn => ?_⟩
  obtain ⟨id, hid⟩ := Array.mem_iff_getElem?.1 hn
  exact h id n hid

theorem within_modify {t : Tree} (h : Within lo hi t) {id : Nat} {f : Node → Node}
    (hf : ∀ n, t.node? id = some n → Within lo hi n → Within lo hi (f n)) :
    Within lo hi (t.modify id f) := by
  rw [within_tree]
  intro j n hn
  rw [Tree.node?_modify] at hn
  split at hn
  · next hj =>
    subst hj
    obtain ⟨n₀, hn₀, rfl⟩ := Option.map_eq_some_iff.1 hn
    exact hf n₀ hn₀ (within_tree.1 h id n₀ hn₀)
  · exact within_tree.1 h j n hn

theorem within_modifyElement {t : Tree} (h : Within lo hi t) {id : Nat} {f : Element → Element}
    (hf : ∀ e, t.element? id = some e → Within lo hi e → Within lo hi (f e)) :
    Within lo hi (t.modifyElement id f) := by
  refine within_modify h fun n hn hin => ?_
  unfold Node.mapElement
  split
  · next e he =>
    have helement : t.element? id = some e := by rw [Tree.element?_eq hn, Node.element?, he]
    rw [within_node, he] at hin
    exact within_node.2 ⟨hf e helement hin.1, hin.2⟩
  · exact hin

/-- The places of a unit. -/
def MarkupUnit.Within (lo hi : Nat) : MarkupUnit → Prop
  | .startTag t => Spotted.Within lo hi t.extent ∧
    ∀ a ∈ t.attributes, ∀ ns, Spotted.Within lo hi (Builder.plainAttribute ns a)
  | u => Spotted.Within lo hi u.extent

namespace Builder

variable {b : Builder}

/-- All offsets in the tree lie between `lo` and `hi`. -/
def Within (lo hi : Nat) (b : Builder) : Prop := Spotted.Within lo hi b.tree

theorem Within.addNode (h : b.Within lo hi) {content : NodeContent} {extent : Extent}
    (hc : Spotted.Within lo hi content) (he : Spotted.Within lo hi extent) :
    (b.addNode content extent).Within lo hi := by
  have hchild : Spotted.Within lo hi (b.tree.modify b.current fun n => n.addChild b.tree.size) := by
    refine within_modify h fun n _ hn => ?_
    unfold Node.addChild
    split
    · exact within_node.2 ⟨fun s hs => absurd hs List.not_mem_nil, (within_node.1 hn).2⟩
    · next e he =>
      rw [within_node, he] at hn
      exact within_node.2 ⟨hn.1, hn.2⟩
    · exact hn
  refine within_tree.2 fun j n hn => ?_
  by_cases hj : j = b.tree.size
  · subst hj
    obtain rfl := Option.some.inj ((Tree.node?_append_self ..).symm.trans hn)
    exact within_node.2 ⟨hc, he⟩
  · exact within_tree.1 hchild j n ((Tree.node?_append hj).symm.trans hn)

/-- What an element ends with is one of its parts. -/
theorem Within.lastExtent (h : b.Within lo hi) {id : Nat} {e : Element}
    (he : b.tree.element? id = some e) : Spotted.Within lo hi (b.lastExtent e) := by
  obtain ⟨n, hn, hne⟩ := Option.bind_eq_some_iff.1 he
  have hnode := within_node.1 (within_tree.1 h id n hn)
  have hcontent : n.content = .element e := by
    unfold Node.element? at hne
    split at hne
    · next e' he' => rw [he', Option.some.inj hne]
    · simp at hne
  rw [hcontent] at hnode
  obtain ⟨⟨⟨-, hstart⟩, hend⟩, -⟩ := within_element.1 hnode.1
  unfold Builder.lastExtent
  split
  · next tag htag => exact within_option.1 hend tag htag
  · split
    · next child hchild =>
      obtain ⟨c, -, hc⟩ := Option.bind_eq_some_iff.1 hchild
      exact (within_node.1 (within_tree.1 h c child hc)).2
    · exact hstart

theorem Within.closeElement (h : b.Within lo hi) (id : Nat) : (b.closeElement id).Within lo hi := by
  have hclosed : ∀ e, b.tree.element? id = some e → Spotted.Within lo hi (b.tree.modify id fun n =>
      { n with extent := n.extent.through (b.lastExtent e) }) := by
    intro e he
    refine within_modify h fun n _ hn => ?_
    obtain ⟨hcontent, hextent⟩ := within_node.1 hn
    exact within_node.2 ⟨hcontent, within_extent.2
      ⟨(within_extent.1 hextent).1, (within_extent.1 (h.lastExtent he)).2⟩⟩
  unfold Builder.closeElement
  dsimp only
  cases he : b.tree.element? id with
  | none => split <;> exact h
  | some e => split <;> exact hclosed e he

theorem Within.closeInnermost (h : b.Within lo hi) (count : Nat) :
    (b.closeInnermost count).Within lo hi := by
  induction count generalizing b with
  | zero => exact h
  | succ count ih =>
    rw [Builder.closeInnermost]
    split
    · next id outer _ => exact ih (Within.closeElement (b := { b with opened := outer }) h id)
    · exact h

theorem closeElement_locator (b : Builder) (id : Nat) : (b.closeElement id).locator = b.locator := by
  unfold Builder.closeElement
  dsimp only
  split <;> rfl

theorem closeInnermost_locator (b : Builder) (count : Nat) :
    (b.closeInnermost count).locator = b.locator := by
  induction count generalizing b with
  | zero => rfl
  | succ count ih =>
    rw [Builder.closeInnermost]
    split
    · exact (ih _).trans (closeElement_locator _ _)
    · rfl

theorem Within.closeImplied (h : b.Within lo hi) (name : String) :
    (b.closeImplied name).Within lo hi := by
  unfold Builder.closeImplied
  split
  · next id outer _ _ _ =>
    split
    · exact Within.closeElement (b := { b with opened := outer }) h id
    · exact h
  · exact h

theorem Within.onEndTag (h : b.Within lo hi) {tag : EndTag}
    (ht : Spotted.Within lo hi tag.extent) : (b.onEndTag tag).Within lo hi := by
  unfold Builder.onEndTag
  split
  · next depth target _ _ =>
    refine Within.closeInnermost (b := { b with tree := _ }) ?_ _
    refine within_modify h fun n _ hn => ?_
    unfold Node.mapElement
    split
    · next e he =>
      rw [within_node, he] at hn
      obtain ⟨⟨hfront, -⟩, hbindings⟩ := within_element.1 hn.1
      refine within_node.2 ⟨within_element.2 ⟨⟨hfront, ?_⟩, hbindings⟩, hn.2⟩
      exact within_option.2 fun y hy => Option.some.inj hy ▸ ht
    · exact hn
  · exact h

theorem Within.onStartTag (h : b.Within lo hi) {tag : StartTag}
    (ht : MarkupUnit.Within lo hi (.startTag tag)) : (b.onStartTag tag).Within lo hi := by
  have hempty : Spotted.Within lo hi (#[] : Array Variable) := within_array.2 (by simp)
  unfold Builder.onStartTag
  dsimp only
  generalize himplied : b.closeImplied tag.rawName.toLower = b₀
  have h₀ : b₀.Within lo hi := himplied ▸ h.closeImplied _
  generalize ElementClass.namespaceOf b₀.currentElement? tag.rawName.toLower tag = ns
  generalize hchecked : b₀.checkNamespaces ns (tag.attributes.map (plainAttribute ns)) = b₁
  have h₁ : b₁.Within lo hi := by
    rw [Within, ← hchecked, checkNamespaces_tree]
    exact h₀
  generalize hadded : b₁.addNode (.element _) tag.extent = b₂
  have h₂ : b₂.Within lo hi := by
    rw [← hadded]
    refine h₁.addNode (within_element.2 ⟨⟨⟨?_, ht.1⟩, within_option.2 nofun⟩, hempty⟩) ht.1
    refine within_array.2 fun x hx => ?_
    obtain ⟨y, hy, rfl⟩ := Array.mem_map.1 hx
    obtain ⟨a, ha, rfl⟩ := Array.mem_map.1 hy
    exact ht.2 a ha ns
  generalize hscheduled : b₂.scheduleDirectives _ _ _ = b₃
  have h₃ : b₃.Within lo hi := by
    rw [Within, ← hscheduled, scheduleDirectives_tree]
    exact h₂
  split
  · exact h₃.closeElement _
  · exact h₃

/-- A unit puts its places into the tree. -/
theorem Within.onUnit (h : b.Within lo hi) {u : MarkupUnit} (hu : u.Within lo hi) :
    (b.onUnit u).Within lo hi := by
  have hlogged : (if b.lexer.tracing then b.logged (.pulled b.opened.length u.extent.span)
      else b).Within lo hi := by
    split <;> exact h
  unfold Builder.onUnit
  dsimp only
  generalize (if b.lexer.tracing then b.logged (.pulled b.opened.length u.extent.span) else b) =
    b' at hlogged
  cases u with
  | startTag tag => exact hlogged.onStartTag hu
  | endTag tag => exact hlogged.onEndTag hu
  | text run => exact hlogged.addNode (fun s hs => absurd hs List.not_mem_nil) hu
  | mustache m =>
    have hcontent : Spotted.Within lo hi (NodeContent.mustache ⟨none, #[], m.extent⟩) :=
      fun s hs => hu s (by simpa [spots, MarkupUnit.extent] using hs)
    exact hlogged.addNode hcontent hu

end Builder

/-! ## Runs -/

/-- The units between two offsets, read from tokens between them, have their places there. -/
theorem UnitsIn.within {closing : Prop} {taken : List Token} {us : List MarkupUnit} {p q : Nat}
    (h : UnitsIn closing taken p us q) (hlo : lo ≤ p) (hhi : q ≤ hi)
    (ht : ∀ t ∈ taken, Spotted.Within lo hi t) : ∀ u ∈ us, u.Within lo hi := by
  intro u hu
  have hextent : Spotted.Within lo hi u.extent := by
    obtain ⟨hstart, hle, hstop⟩ := h.inOrder.of_mem (List.mem_map_of_mem hu)
    exact within_extent.2 ⟨⟨by omega, by omega⟩, by omega, by omega⟩
  cases u with
  | startTag tag =>
    refine ⟨hextent, fun a ha ns => ?_⟩
    have hfrom : a.ReadFrom taken := (show tag.ReadFrom taken from h.readFrom _ hu).attributes a ha
    have hkey := within_extent.1 (ht a.key hfrom.key.1)
    have hvalue : Spotted.Within lo hi (a.value.map fun v => (⟨v.value, v.extent⟩ : Literal)) := by
      refine within_option.2 fun l hl => ?_
      obtain ⟨v, hv, rfl⟩ := Option.map_eq_some_iff.1 hl
      exact ht v (hfrom.value v hv).1
    have hstop : Spotted.Within lo hi (a.value.getD a.key).extent := by
      cases hv : a.value with
      | none => exact ht a.key hfrom.key.1
      | some v => exact ht v (hfrom.value v hv).1
    have hwhole : Spotted.Within lo hi a.extent := by
      rw [hfrom.extent]
      exact within_extent.2 ⟨hkey.1, (within_extent.1 hstop).2⟩
    simp only [Spotted.Within, spots, List.forall_mem_append]
    exact ⟨⟨ht a.key hfrom.key.1, hvalue⟩, hwhole⟩
  | endTag tag => exact hextent
  | text run => exact hextent
  | mustache m => exact hextent

/-- The tokens of a stream lie in the text. -/
theorem Stream.within {cs : List Char} {l : Locator} {gap : Nat → Prop} {taken : List Token}
    {m : Mode} {p : Nat} (h : Stream cs l gap taken m p) (hsize : l.index.size = byteLength cs) :
    ∀ t ∈ taken, Within (l.host 0) (l.host l.index.size) t := by
  intro t ht
  obtain ⟨hlo, hle, hhi⟩ := h.inOrder.of_mem (List.mem_map_of_mem ht)
  have hstop : l.host p ≤ l.host l.index.size := by
    rw [hsize]
    exact Nat.add_le_add_left h.le_size _
  exact within_extent.2 ⟨⟨hlo, by omega⟩, by omega, by omega⟩

namespace Builder

variable {cs : List Char} {l : Locator} {taken ts : List Token} {b b' : Builder} {x : Lexer}

theorem Within.drain (h : b.Within lo hi) (hu : ∀ u ∈ b.assembler.output, u.Within lo hi) :
    b.drain.Within lo hi := by
  simp only [Builder.drain, Assembler.takeOutput]
  generalize hstart : ({ b with assembler := _ } : Builder) = start
  have hfirst : start.Within lo hi := hstart ▸ h
  refine Array.foldl_induction (fun _ (b' : Builder) => b'.Within lo hi) hfirst fun i b' ih => ?_
  exact ih.onUnit (hu _ (Array.getElem_mem _))

/-- Taking tokens puts places of the template into the tree. -/
theorem Takes.within (h : Takes b ts b') (hr : Runs cs l taken b)
    (hb : b.Within (l.host 0) (l.host l.index.size)) :
    b'.Within (l.host 0) (l.host l.index.size) := by
  induction h with
  | nothing => exact hb
  | token h hpull ih =>
    have hruns := h.runs hr
    cases hruns.next with
    | token hpull' hx hloc _ _ _ =>
      obtain ⟨ht, rfl⟩ := Prod.mk.inj (hpull.symm.trans hpull')
      obtain rfl := Option.some.inj ht
      obtain ⟨floor, mid, m, p, hstands, hmid, hstream, hunits, -⟩ := hruns.process hx hloc
      refine Within.drain ih fun u hu => ?_
      exact hunits.within hstands.built.host_le hmid (hstream.within (hloc ▸ hx.size)) u
        (Array.mem_toList_iff.2 hu)
    | ended hpull' _ _ _ => exact absurd (hpull.symm.trans hpull') (by simp)

/-- So does taking what is left at the end of the text. -/
theorem Within.atEnd (h : b.Within (l.host 0) (l.host l.index.size)) (hr : Runs cs l taken b)
    (hx : x.Tracks cs taken) (hloc : x.locator = l) :
    (b.atEnd x).Within (l.host 0) (l.host l.index.size) := by
  obtain ⟨floor, mid, p, hstands, hmid, hunits, -⟩ := hr.commit hx hloc
  obtain ⟨floor', m, p', hstream, -⟩ := hr.stands
  refine Within.drain h fun u hu => ?_
  exact hunits.within hstands.built.host_le hmid (hstream.within (hloc ▸ hx.size)) u
    (Array.mem_toList_iff.2 hu)

/-- The root goes from its first child to its last. -/
theorem Within.placeRoot (h : b.Within lo hi)
    (hroot : lo ≤ b.locator.host 0 ∧ b.locator.host 0 ≤ hi) : b.placeRoot.Within lo hi := by
  have hchild : ∀ {c n}, b.tree.node? c = some n → Spotted.Within lo hi n.extent := fun hn =>
    (within_node.1 (within_tree.1 h _ _ hn)).2
  have hspan : (lo ≤ b.rootSpan.start ∧ b.rootSpan.start ≤ hi) ∧
      lo ≤ b.rootSpan.stop ∧ b.rootSpan.stop ≤ hi := by
    unfold rootSpan
    dsimp only
    split
    · next first last hfirst hlast =>
      obtain ⟨c, -, hc⟩ := Option.bind_eq_some_iff.1 hfirst
      obtain ⟨d, -, hd⟩ := Option.bind_eq_some_iff.1 hlast
      exact ⟨(within_extent.1 (hchild hc)).1, (within_extent.1 (hchild hd)).2⟩
    · exact ⟨hroot, hroot⟩
  refine within_modify h fun n _ hn => ?_
  exact within_node.2 ⟨(within_node.1 hn).1, within_extent.2 hspan⟩

end Builder

namespace Template

variable (text : String) (o : Options)

theorem host_zero_le : (locatorOf text o).host 0 ≤ (locatorOf text o).host 0 ∧
    (locatorOf text o).host 0 ≤ (locatorOf text o).host (locatorOf text o).index.size :=
  ⟨Nat.le_refl _, Nat.add_le_add_left (Nat.zero_le _) _⟩

theorem startOf_within : (startOf text o).Within ((locatorOf text o).host 0)
    ((locatorOf text o).host (locatorOf text o).index.size) := by
  refine within_tree.2 fun id n hn => ?_
  obtain ⟨-, rfl⟩ := Tree.node?_ofRoot hn
  refine within_node.2 ⟨fun s hs => absurd hs List.not_mem_nil, within_extent.2 ?_⟩
  exact ⟨host_zero_le text o, (host_zero_le text o).2, Nat.le_refl _⟩

/-- All offsets in the tree of an outline are offsets of the template. -/
theorem builderOf_within : (builderOf text o).Within ((locatorOf text o).host 0)
    ((locatorOf text o).host (locatorOf text o).index.size) := by
  obtain ⟨ts, b, x, hall⟩ := exists_takesAll text o
  have hend := (hall.takes.within (runs_startOf text o) (startOf_within text o)).atEnd hall.runs
    hall.tracks hall.locator
  obtain ⟨floor, -, hstands⟩ := hall.ended.stands
  rw [hall.builderOf]
  refine (hend.closeInnermost _).placeRoot ?_
  rw [Builder.closeInnermost_locator, hstands.built.locator.1]
  exact host_zero_le text o

end Template
end TemplateSyntax
