import TemplateSyntax.Proofs.Above
import TemplateSyntax.Proofs.BuilderSteps

/-! # Trees in document order

The tree builder adds each node on the path from the root to the node that it added last.  So the nodes
are numbered in the order in which they are met when parents come before their children: the node
behind another is its child, or a child of a node above it.  What is below a node is then a range of
numbers. -/

namespace TemplateSyntax

namespace Tree

variable {t t' : Tree} {id a c d m p x : Nat} {opened : List Nat} {content : NodeContent}
  {extent : Extent}

/-- Each node comes behind its parent, and the parent of the node that follows another one is that
node, or stands above it. -/
structure Preorder (t : Tree) : Prop where
  before : ∀ d p, t.parent? d = some p → p < d
  next : ∀ m, m + 1 < t.size → ∃ p, t.parent? (m + 1) = some p ∧ (p = m ∨ t.Above p m)

theorem Preorder.congr (h : t.Preorder) (hs : t'.size = t.size)
    (hp : ∀ j, t'.parent? j = t.parent? j) : t'.Preorder where
  before d p hd := h.before d p ((hp d).symm.trans hd)
  next m hm := by
    obtain ⟨p, hparent, hor⟩ := h.next m (hs ▸ hm)
    exact ⟨p, (hp _).trans hparent, hor.imp_right (above_congr hp).2⟩

theorem parent?_lt_size (h : t.parent? d = some p) : d < t.size := by
  obtain ⟨n, hn, -⟩ := Option.bind_eq_some_iff.1 h
  exact lt_size hn

theorem Above.trans (h : t.Above a p) (h' : t.Above p d) : t.Above a d := by
  induction h' with
  | parent hp => exact .further hp h
  | further hp _ ih => exact .further hp ih

theorem Above.lt (h : t.Above a d) (hb : t.Preorder) : a < d := by
  induction h with
  | parent hp => exact hb.before _ _ hp
  | further hp _ ih => exact Nat.lt_trans ih (hb.before _ _ hp)

theorem Above.below_size (h : t.Above a d) : d < t.size := by
  cases h with
  | parent hp | further hp => exact parent?_lt_size hp

/-- What stands above a node stands above all nodes between the two. -/
theorem Preorder.between (h : t.Preorder) (ha : t.Above a d) (hx : a < x) (hd : x ≤ d) :
    t.Above a x := by
  induction d with
  | zero => exact absurd hx (by omega)
  | succ m ih =>
    rcases Nat.lt_or_eq_of_le hd with hlt | rfl
    · refine ih ?_ (Nat.le_of_lt_succ hlt)
      -- from `m + 1` to the node `m` in front of it
      obtain ⟨p, hp, hor⟩ := h.next m ha.below_size
      rcases (above_iff hp).1 ha with rfl | hap
      · rcases hor with rfl | habove
        · exact absurd hx (by omega)
        · exact habove
      · rcases hor with rfl | habove
        · exact hap
        · exact hap.trans habove
    · exact ha

/-- A sibling that comes later stands behind all that is below a node. -/
theorem Preorder.below_lt_sibling (h : t.Preorder) (hp : t.parent? c = some p)
    (hs : t.parent? x = some p) (hlt : c < x) (hd : d = c ∨ t.Above c d) : d < x := by
  rcases hd with rfl | hd
  · exact hlt
  · refine Nat.lt_of_not_le fun hle => ?_
    have habove := h.between hd hlt hle
    rcases (above_iff hs).1 habove with rfl | hcp
    · exact absurd (h.before _ _ hp) (Nat.lt_irrefl _)
    · have h1 := hcp.lt h
      have h2 := h.before _ _ hp
      omega

/-- The root is the one node of its type. -/
def RootAlone (t : Tree) : Prop :=
  ∀ id n, t.node? id = some n → (n.typeName = "VTemplateRoot" ↔ id = root)

theorem RootAlone.modify (h : t.RootAlone) {f : Node → Node}
    (hf : ∀ n, (f n).typeName = n.typeName) : (t.modify id f).RootAlone := by
  intro j n hn
  rw [node?_modify] at hn
  split at hn
  · obtain ⟨n₀, hn₀, rfl⟩ := Option.map_eq_some_iff.1 hn
    rw [hf]
    exact h j n₀ hn₀
  · exact h j n hn

theorem addChild_typeName (n : Node) (c : Nat) : (n.addChild c).typeName = n.typeName := by
  obtain ⟨content, parent, extent⟩ := n
  cases content <;> rfl

theorem mapElement_typeName (f : Element → Element) (n : Node) :
    (n.mapElement f).typeName = n.typeName := by
  obtain ⟨content, parent, extent⟩ := n
  cases content <;> rfl

theorem RootAlone.append (h : t.RootAlone) (hs : 0 < t.size)
    (hc : ∀ cs, content ≠ .root cs) (p : Nat) (extent : Extent) :
    (t.append p content extent).RootAlone := by
  intro j n hn
  by_cases hj : j = t.size
  · subst hj
    rw [node?_append_self] at hn
    obtain rfl := Option.some.inj hn
    refine ⟨fun htype => ?_, fun heq => absurd heq (Nat.ne_of_gt hs)⟩
    cases content with
    | root cs => exact absurd rfl (hc cs)
    | element e | text v | mustache c => simp [Node.typeName] at htype
  · rw [node?_append hj] at hn
    exact h.modify (fun n => addChild_typeName n _) j n hn

/-- The children of each node are there, each behind the one in front of it. -/
def Ascending (t : Tree) : Prop :=
  ∀ p, (t.children p).toList.Pairwise (· < ·) ∧ ∀ c ∈ t.children p, c < t.size

theorem Ascending.congr (h : t.Ascending) (hs : t'.size = t.size)
    (hc : ∀ j, t'.children j = t.children j) : t'.Ascending := by
  intro p
  rw [hc, hs]
  exact h p

theorem children_append_self (hc : (Node.mk content (some p) extent).children = #[]) :
    (t.append p content extent).children t.size = #[] := by
  rw [children_eq (node?_append_self t p content extent), hc]

theorem children_of_not_canHold (h : ¬ t.canHold p = true) {f : Node → Node}
    (hf : ∀ n, ¬ n.canHold = true → (f n).children = n.children) :
    (t.modify p f).children p = t.children p := by
  rw [children, children, map_node?_modify Node.children fun n hn => hf n fun hn' => h ?_]
  rw [canHold, hn, Option.any_some, hn']

theorem Ascending.append (h : t.Ascending) (hc : (Node.mk content (some p) extent).children = #[]) :
    (t.append p content extent).Ascending := by
  intro j
  have hsize : (t.append p content extent).size = t.size + 1 := t.size_append p content extent
  by_cases hj : j = t.size
  · rw [hj, children_append_self hc]
    exact ⟨.nil, by simp⟩
  obtain ⟨hsorted, hlt⟩ := h j
  have hkept : (t.append p content extent).children j = t.children j →
      ((t.append p content extent).children j).toList.Pairwise (· < ·) ∧
        ∀ c ∈ (t.append p content extent).children j, c < (t.append p content extent).size := by
    intro heq
    rw [heq, hsize]
    exact ⟨hsorted, fun c hmem => Nat.lt_succ_of_lt (hlt c hmem)⟩
  by_cases hp : p = j
  · subst hp
    by_cases hhold : t.canHold p = true
    · rw [children_append_parent hhold, hsize, Array.toList_push, List.pairwise_append]
      refine ⟨⟨hsorted, List.pairwise_singleton _ _, fun x hx y hy => ?_⟩, fun c hmem => ?_⟩
      · rw [List.mem_singleton.1 hy]
        exact hlt x (by simpa using hx)
      · rcases Array.mem_push.1 hmem with hmem | rfl
        · exact Nat.lt_succ_of_lt (hlt c hmem)
        · exact Nat.lt_succ_self _
    · refine hkept ?_
      rw [children, node?_append hj]
      refine children_of_not_canHold hhold fun n hn => ?_
      obtain ⟨content, parent, extent⟩ := n
      cases content with
      | root _ | element _ => exact absurd rfl hn
      | text _ | mustache _ => rfl
  · exact hkept (children_append_of_ne hj hp)

end Tree

/-! ## The builder -/

namespace Draft

open TemplateSyntax.Tree (tip)

variable {d d' : Draft}

/-- The nodes of a draft are in document order, and the next one goes onto the path from the root to the
last one. -/
structure Numbered (d : Draft) : Prop where
  size : 0 < d.tree.size
  roots : d.tree.RootAlone
  preorder : d.tree.Preorder
  ascending : d.tree.Ascending
  chain : d.tree.Chain d.opened
  path : ∃ last, last + 1 = d.tree.size ∧ (tip d.opened = last ∨ d.tree.Above (tip d.opened) last)

theorem Numbered.ofRoot (extent : Extent) : (Draft.ofRoot extent).Numbered := by
  have hnode : ∀ {id n}, (Tree.ofRoot extent).node? id = some n → id = Tree.root ∧
      n = ⟨.root #[], none, extent⟩ := by
    intro id n hn
    cases id with
    | zero => exact ⟨rfl, (Option.some.inj hn).symm⟩
    | succ id => simp [Tree.ofRoot, Tree.node?] at hn
  have hparent : ∀ d, (Tree.ofRoot extent).parent? d = none := by
    intro d
    rw [Tree.parent?, Option.bind_eq_none_iff]
    intro n hn
    rw [(hnode hn).2]
  have hchildren : ∀ p, (Tree.ofRoot extent).children p = #[] := by
    intro p
    cases hn : (Tree.ofRoot extent).node? p with
    | none => rw [Tree.children, hn]; rfl
    | some n =>
      rw [Tree.children_eq hn, (hnode hn).2]
      rfl
  refine ⟨Nat.one_pos, fun id n hn => ?_, ⟨fun d p hp => ?_, fun m hm => ?_⟩, fun p => ?_, trivial,
    0, rfl, .inl rfl⟩
  · obtain ⟨rfl, rfl⟩ := hnode hn
    exact ⟨fun _ => rfl, fun _ => rfl⟩
  · exact absurd ((hparent d).symm.trans hp) (by simp)
  · exact absurd hm (by simp [Draft.ofRoot, Tree.ofRoot, Tree.size])
  · have hempty : (Draft.ofRoot extent).tree.children p = #[] := hchildren p
    rw [hempty]
    exact ⟨.nil, by simp⟩

/-- Nothing depends on the places of nodes and on the end tags of elements. -/
theorem Numbered.modify (h : d.Numbered) {id : Nat} {f : Node → Node}
    (hp : ∀ n, (f n).parent = n.parent) (hc : ∀ n, (f n).children = n.children)
    (ht : ∀ n, (f n).typeName = n.typeName) :
    ({ d with tree := d.tree.modify id f } : Draft).Numbered := by
  have hsize : (d.tree.modify id f).size = d.tree.size := d.tree.size_modify id f
  have hparent : ∀ j, (d.tree.modify id f).parent? j = d.tree.parent? j := fun j =>
    Tree.parent?_modify hp
  obtain ⟨last, hlast, hor⟩ := h.path
  exact {
    size := hsize ▸ h.size
    roots := h.roots.modify ht
    preorder := h.preorder.congr hsize hparent
    ascending := h.ascending.congr hsize fun j => Tree.children_modify hc
    chain := h.chain.congr fun j _ => hparent j
    path := ⟨last, hlast.trans hsize.symm, hor.imp_right (Tree.above_congr hparent).2⟩ }

/-- Closing an element leaves its parent on the path. -/
theorem Numbered.close (h : d.Numbered) {id : Nat} {outer : List Nat}
    (ho : d.opened = id :: outer) : ({ d with opened := outer } : Draft).Numbered := by
  obtain ⟨hparent, hchain⟩ : d.tree.Chain (id :: outer) := ho ▸ h.chain
  obtain ⟨last, hlast, hor⟩ := h.path
  rw [ho] at hor
  refine { h with chain := hchain, path := ⟨last, hlast, .inr ?_⟩ }
  rcases hor with heq | habove
  · exact .parent (heq ▸ hparent)
  · exact Tree.Above.trans (.parent hparent) habove

/-- A new node follows the last one, below a node of the path. -/
theorem Numbered.append (h : d.Numbered) {content : NodeContent} (extent : Extent)
    (hroot : ∀ cs, content ≠ .root cs)
    (hc : (Node.mk content (some (tip d.opened)) extent).children = #[]) (opens : Bool) :
    ({ d with
      tree := d.tree.append (tip d.opened) content extent
      opened := if opens then d.tree.size :: d.opened else d.opened } : Draft).Numbered := by
  obtain ⟨last, hlast, hor⟩ := h.path
  have hparents : ∀ j p, d.tree.parent? j = some p → p < d.tree.size := fun j p hp =>
    Nat.lt_trans (h.preorder.before j p hp) (Tree.parent?_lt_size hp)
  have hopened : ∀ j ∈ d.opened, j < d.tree.size := by
    have hall : ∀ opened : List Nat, d.tree.Chain opened → ∀ j ∈ opened, j < d.tree.size := by
      intro opened hchain
      induction opened with
      | nil => simp
      | cons id outer ih =>
        exact List.forall_mem_cons.2 ⟨Tree.parent?_lt_size hchain.1, ih hchain.2⟩
    exact hall d.opened h.chain
  have htip : tip d.opened < d.tree.size := by
    rcases hor with heq | habove
    · omega
    · exact habove.lt_size hparents
  have hold : ∀ j, j ≠ d.tree.size →
      (d.tree.append (tip d.opened) content extent).parent? j = d.tree.parent? j := fun j hj =>
    Tree.parent?_append hj
  have hnew : (d.tree.append (tip d.opened) content extent).parent? d.tree.size =
      some (tip d.opened) := by
    rw [Tree.parent?, Tree.node?_append_self]
    rfl
  have habove : ∀ {a j}, j < d.tree.size →
      ((d.tree.append (tip d.opened) content extent).Above a j ↔ d.tree.Above a j) := fun hj =>
    Tree.above_append hparents hj
  have hsize := d.tree.size_append (tip d.opened) content extent
  have hroots := h.roots.append h.size hroot (tip d.opened) extent
  have hascending := h.ascending.append hc
  generalize d.tree.append (tip d.opened) content extent = t at *
  have hchain : t.Chain d.opened := h.chain.congr fun j hj => hold j (Nat.ne_of_lt (hopened j hj))
  refine ⟨hsize ▸ Nat.succ_pos _, hroots, ⟨fun j p hp => ?_, fun m hm => ?_⟩, hascending, ?_,
    d.tree.size, hsize.symm, ?_⟩
  · by_cases hj : j = d.tree.size
    · rw [hj, hnew] at hp
      obtain rfl := Option.some.inj hp
      exact hj ▸ htip
    · exact h.preorder.before j p ((hold j hj).symm.trans hp)
  · have hm' : m + 1 ≤ d.tree.size := by
      rw [hsize] at hm
      exact Nat.le_of_lt_succ hm
    rcases Nat.lt_or_eq_of_le hm' with hlt | heq
    · obtain ⟨p, hp, hpm⟩ := h.preorder.next m hlt
      refine ⟨p, (hold _ (Nat.ne_of_lt hlt)).trans hp, hpm.imp_right (habove ?_).2⟩
      exact Nat.lt_of_succ_lt hlt
    · obtain rfl : m = last := by omega
      refine ⟨tip d.opened, heq ▸ hnew, hor.imp_right (habove ?_).2⟩
      omega
  · cases opens with
    | false => exact hchain
    | true => exact ⟨hnew, hchain⟩
  · cases opens with
    | false => exact .inr (.parent hnew)
    | true => exact .inl rfl

/-- Each step of the builder keeps the document order. -/
theorem Numbered.step (h : d.Numbered) (hs : d.Step d') : d'.Numbered := by
  cases hs with
  | place id f => exact h.modify (fun n => rfl) (fun n => rfl) fun n => rfl
  | endTag id tag =>
    refine h.modify (fun n => ?_) (fun n => ?_) fun n => Tree.mapElement_typeName _ n
    · unfold Node.mapElement
      split <;> rfl
    · unfold Node.mapElement
      split
      · next e he => simp [Node.children, he]
      · rfl
  | close ho => exact h.close ho
  | @element e extent found opens hc =>
    have hchildren : (Node.mk (.element e) (some (tip d.opened)) extent).children = #[] := hc
    exact { h.append extent (by simp) hchildren opens with }
  | text value extent =>
    have hroot : ∀ cs, NodeContent.text value ≠ .root cs := by simp
    exact h.append extent hroot rfl false
  | mustache value start place extent =>
    have hroot : ∀ cs, NodeContent.mustache ⟨none, #[], place⟩ ≠ .root cs := by simp
    exact { h.append extent hroot rfl false with }

end Draft

/-- The outline of a text is in document order. -/
theorem Builder.outline_numbered (cs : List Char) (l : Locator) (tracing : Bool) (fuel : Nat) :
    (run fuel (ofChars cs l tracing)).closeAll.placeRoot.draft.Numbered :=
  (outline_steps cs l tracing fuel).keep (.ofRoot _) fun hs h => h.step hs

end TemplateSyntax
