import TemplateSyntax.Proofs.Relocation
import TemplateSyntax.Proofs.TreeSpans

/-! # The tree of relocated markup

Behind markup that was read before, the tree has the nodes of that markup in front, and the root is
shared: its children are those from before and then the moved ones.  A change of a node and a new node
are the same change and the same node in both trees. -/

namespace TemplateSyntax

namespace Relocation

variable (r : Relocation) {i j : Nat}

theorem node_inj : r.node i = r.node j ↔ i = j := by
  refine ⟨fun h => ?_, congrArg r.node⟩
  by_cases hi : i = Tree.root
  · by_cases hj : j = Tree.root
    · exact hi.trans hj.symm
    · rw [hi, r.node_root, r.node_eq j hj] at h
      simp only [Tree.root] at h hj
      omega
  · by_cases hj : j = Tree.root
    · rw [hj, r.node_root, r.node_eq i hi] at h
      simp only [Tree.root] at h hi
      omega
    · rw [r.node_eq i hi, r.node_eq j hj] at h
      exact Nat.add_left_cancel h

theorem node_eq_root : r.node i = Tree.root ↔ i = Tree.root := by
  conv => lhs; rw [← r.node_root, r.node_inj]

end Relocation

namespace Move

variable (m : Move) (n : Node)

theorem treeNode_element? : (m.treeNode n).element? = n.element?.map m.element := by
  obtain ⟨c, parent, extent⟩ := n
  cases c <;> rfl

theorem treeNode_addChild (c : Nat) :
    m.treeNode (n.addChild c) = (m.treeNode n).addChild (m.node c) := by
  obtain ⟨x, parent, extent⟩ := n
  cases x <;> simp [Node.addChild, treeNode, content, element]

theorem treeNode_mapElement {f f' : Element → Element}
    (h : ∀ e, m.element (f e) = f' (m.element e)) :
    m.treeNode (n.mapElement f) = (m.treeNode n).mapElement f' := by
  obtain ⟨x, parent, extent⟩ := n
  cases x <;> simp [Node.mapElement, treeNode, content, h]

end Move

theorem Node.mem_children_addChild {n : Node} {c k : Nat} (h : c ∈ (n.addChild k).children) :
    c ∈ n.children ∨ c = k := by
  obtain ⟨x, parent, extent⟩ := n
  cases x <;> simp_all [Node.addChild, Node.children]

namespace Tree

/-- The trees of two readings, where `before` is the tree that the second one had before. -/
structure Moved (r : Relocation) (t before t' : Tree) : Prop where
  size : t'.size = r.nodes + t.size
  node : ∀ id, id ≠ root → t'.node? (r.node id) = (t.node? id).map r.treeNode
  front : ∀ id, id ≠ root → id ≤ r.nodes → t'.node? id = before.node? id
  top : ∃ children extent extent', t.node? root = some ⟨.root children, none, extent⟩ ∧
    t'.node? root = some ⟨.root (before.children root ++ children.map r.node), none, extent'⟩
  child : ∀ p c, c ∈ t.children p → c ≠ root

namespace Moved

variable {r : Relocation} {t before t' : Tree}

theorem pos (h : t.Moved r before t') : 0 < t.size := by
  obtain ⟨children, extent, extent', hroot, -⟩ := h.top
  exact lt_size hroot

theorem node_size (h : t.Moved r before t') : r.node t.size = t'.size := by
  rw [h.size]
  exact r.node_eq _ (Nat.ne_of_gt h.pos)

theorem element? (h : t.Moved r before t') (id : Nat) :
    t'.element? (r.node id) = (t.element? id).map r.element := by
  unfold Tree.element?
  by_cases hid : id = Tree.root
  · obtain ⟨children, extent, extent', hroot, hroot'⟩ := h.top
    rw [hid, r.node_root, hroot, hroot']
    rfl
  · rw [h.node id hid]
    cases t.node? id with
    | none => rfl
    | some n => exact r.treeNode_element? n

/-- A change of a node that is not the root. -/
theorem modify (h : t.Moved r before t') {id : Nat} (hid : id ≠ Tree.root) {f f' : Node → Node}
    (hf : ∀ n, t.node? id = some n → r.treeNode (f n) = f' (r.treeNode n))
    (hc : ∀ n, (f n).children = n.children) :
    (t.modify id f).Moved r before (t'.modify (r.node id) f') where
  size := by rw [size_modify, size_modify, h.size]
  node j hj := by
    rw [node?_modify, node?_modify, h.node j hj]
    simp only [r.node_inj]
    split
    · next heq =>
      subst heq
      cases hn : t.node? id with
      | none => rfl
      | some n => exact congrArg some (hf n hn).symm
    · rfl
  front j hj hle := by
    rw [node?_modify_of_ne, h.front j hj hle]
    rw [r.node_eq id hid]
    simp only [Tree.root] at hid
    omega
  top := by
    obtain ⟨children, extent, extent', hroot, hroot'⟩ := h.top
    refine ⟨children, extent, extent', ?_, ?_⟩
    · rw [node?_modify_of_ne hid, hroot]
    · rw [node?_modify_of_ne (mt r.node_eq_root.1 hid), hroot']
  child p c hmem := by
    rw [children_modify hc] at hmem
    exact h.child p c hmem

theorem ne_root_of_element? (h : t.Moved r before t') {id : Nat} {e : Element}
    (he : t.element? id = some e) : id ≠ Tree.root := by
  rintro rfl
  obtain ⟨children, extent, extent', hroot, -⟩ := h.top
  rw [element?_eq hroot] at he
  exact absurd he nofun

/-- A change of an element. -/
theorem modifyElement (h : t.Moved r before t') {id : Nat} (hid : id ≠ Tree.root)
    {f f' : Element → Element} (hf : ∀ e, r.element (f e) = f' (r.element e))
    (hc : ∀ e, (f e).children = e.children) :
    (t.modifyElement id f).Moved r before (t'.modifyElement (r.node id) f') := by
  refine h.modify hid (fun n _ => r.treeNode_mapElement n hf) fun n => ?_
  obtain ⟨x, parent, extent⟩ := n
  cases x <;> simp [Node.mapElement, Node.children, hc]

/-- A new node goes under its parent in both trees. -/
theorem append (h : t.Moved r before t') (p : Nat) (content : NodeContent) (extent : Extent)
    (hnil : (Node.mk content (some p) extent).children = #[]) :
    (t.append p content extent).Moved r before
      (t'.append (r.node p) (r.content content) (r.extent extent)) where
  size := by rw [size_append, size_append, h.size, Nat.add_assoc]
  node j hj := by
    by_cases hsize : j = t.size
    · rw [hsize, h.node_size, node?_append_self, node?_append_self]
      rfl
    · have hsize' : r.node j ≠ t'.size := by
        rw [← h.node_size]
        exact mt r.node_inj.1 hsize
      rw [node?_append hsize, node?_append hsize', node?_modify, node?_modify, h.node j hj]
      simp only [r.node_inj, ← h.node_size]
      split
      · rw [Option.map_map, Option.map_map]
        congr 1
        funext n
        exact (r.treeNode_addChild n _).symm
      · rfl
  front j hj hle := by
    have hsize : j ≠ t'.size := by
      have := h.size
      have := h.pos
      omega
    have hp : r.node p ≠ j := by
      by_cases hp : p = Tree.root
      · rw [hp, r.node_root]
        exact hj.symm
      · rw [r.node_eq p hp]
        simp only [Tree.root] at hp
        omega
    rw [node?_append hsize, node?_modify_of_ne hp, h.front j hj hle]
  top := by
    obtain ⟨children, e, e', hroot, hroot'⟩ := h.top
    have hpos := h.pos
    have hsize : Tree.root ≠ t.size := Nat.ne_of_lt hpos
    have hsize' : Tree.root ≠ t'.size := by
      rw [h.size]
      simp only [Tree.root]
      omega
    rw [node?_append hsize, node?_append hsize', node?_modify, node?_modify, hroot, hroot']
    by_cases hp : p = Tree.root
    · rw [if_pos hp, if_pos (by rw [hp, r.node_root])]
      refine ⟨children.push t.size, e, e', rfl, ?_⟩
      rw [Array.map_push, h.node_size, Array.append_push]
      rfl
    · rw [if_neg hp, if_neg (mt r.node_eq_root.1 hp)]
      exact ⟨children, e, e', rfl, rfl⟩
  child q c hmem := by
    by_cases hq : q = t.size
    · rw [hq, children_eq (node?_append_self t p content extent), hnil] at hmem
      simp at hmem
    · rw [children, node?_append hq, node?_modify] at hmem
      cases hn : t.node? q with
      | none => simp [hn] at hmem
      | some n =>
        have hold : c ∈ n.children → c ≠ Tree.root := fun hc =>
          h.child q c (by rw [children_eq hn]; exact hc)
        rw [hn] at hmem
        split at hmem
        · rcases Node.mem_children_addChild hmem with hc | rfl
          · exact hold hc
          · exact Nat.ne_of_gt h.pos
        · exact hold hmem

end Moved
end Tree
end TemplateSyntax
