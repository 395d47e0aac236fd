import TemplateSyntax.Proofs.ProgressMove
import TemplateSyntax.Proofs.References

/-! # References of joined trees

The nodes of two trees may be joined under one root.  A name means the same there as in the tree of its
own, and each variable is used by the same references in the same order, so that resolving the joined
tree joins the trees that are resolved. -/

namespace TemplateSyntax

namespace Move

variable (m : Move)

/-- What happens to a reference with the variable it means. -/
def link (x : VariableRef × Script.Ident) : VariableRef × Script.Ident := (m.variableRef x.1, m.ident x.2)

theorem links_container (c : Container) : (m.container c).links = c.links.map m.link := by
  unfold Container.links container
  dsimp only
  rw [Array.toList_map, List.filterMap_map, List.map_filterMap]
  congr 1
  funext r
  cases hr : r.target <;> simp [reference, Reference.ident, ident, hr, link]

theorem containers_directive (d : Directive) :
    (m.directive d).containers = d.containers.map m.container := by
  unfold Directive.containers directive key
  dsimp only
  rw [List.map_append, Option.toList_map]
  congr 1
  cases d.key.argument with
  | none => rfl
  | some x => cases x <;> rfl

theorem containers_treeNode (n : Node) :
    (m.treeNode n).containers = n.containers.map m.container := by
  obtain ⟨c, parent, extent⟩ := n
  cases c with
  | element e =>
    simp only [Node.containers, treeNode, content, element, Array.toList_map, List.map_map,
      List.map_flatten]
    refine congrArg List.flatten (List.map_congr_left fun x _ => ?_)
    cases x with
    | plain a => rfl
    | directive d => exact m.containers_directive d
  | _ => rfl

/-- Containers that are bound may be moved before or after. -/
theorem treeNode_mapContainers {f f' : Option Nat → Container → Container} {id : Nat} {n : Node}
    (hid : ∀ c, f' (some (m.node id)) (m.container c) = m.container (f (some id) c))
    (hparent : ∀ c, f' (n.parent.map m.node) (m.container c) = m.container (f n.parent c)) :
    (m.treeNode n).mapContainers f' (m.node id) = m.treeNode (n.mapContainers f id) := by
  obtain ⟨c, parent, extent⟩ := n
  have hdirective : ∀ d : Directive, (m.directive d).mapContainers f' (m.node id)
      (parent.map m.node) = m.directive (d.mapContainers f id parent) := by
    intro d
    have hscope : ∀ c, f' ((m.directive d).valueScope (m.node id) (parent.map m.node))
        (m.container c) = m.container (f (d.valueScope id parent) c) := by
      intro c
      have hname : (m.directive d).key.name.name = d.key.name.name := rfl
      unfold Directive.valueScope
      rw [hname]
      split
      · exact hparent c
      · exact hid c
    obtain ⟨⟨name, argument, modifiers, kextent⟩, value, dextent⟩ := d
    unfold Directive.mapContainers
    have hvalue : (value.map m.container).map (f' ((m.directive ⟨⟨name, argument, modifiers,
        kextent⟩, value, dextent⟩).valueScope (m.node id) (parent.map m.node))) =
        (value.map (f (Directive.valueScope ⟨⟨name, argument, modifiers, kextent⟩, value, dextent⟩
          id parent))).map m.container := by
      cases value with
      | none => rfl
      | some c => exact congrArg some (hscope c)
    simp only [directive, key] at hvalue ⊢
    rw [hvalue]
    cases argument with
    | none => rfl
    | some x =>
      cases x with
      | fixed name => rfl
      | dynamic c => simp only [Option.map_some, Move.argument, hid]
  cases c with
  | mustache c => simp only [Node.mapContainers, treeNode, content, hparent]
  | element e =>
    simp only [Node.mapContainers, treeNode, content, element, Array.map_map]
    congr 4
    funext x
    cases x with
    | plain a => rfl
    | directive d => exact congrArg Attribute.directive (hdirective d)
  | _ => rfl

end Move

namespace Tree

variable {m : Move} {a t : Tree} {id : Nat}

/-- Nothing is resolved at the root. -/
theorem resolve_root {t : Tree} {children : Array Nat} {e : Extent}
    (h : t.node? root = some ⟨.root children, none, e⟩) :
    t.resolve.node? root = some ⟨.root children, none, e⟩ := by
  rw [resolve_eq, node?_addUses, node?_bindAll, h]
  rfl

/-- What is put down with a node moves with it. -/
theorem treeNode_usedBy (m : Move) {links links' : List (VariableRef × Script.Ident)} {id : Nat}
    (hlinks : ∀ i, (links'.filter (·.1 = ⟨m.node id, i⟩)).map Prod.snd =
      ((links.filter (·.1 = ⟨id, i⟩)).map Prod.snd).map m.ident) (n : Node) :
    m.treeNode (n.mapElement (usedBy links id)) =
      (m.treeNode n).mapElement (usedBy links' (m.node id)) := by
  refine m.treeNode_mapElement n fun e => ?_
  simp only [usedBy, Move.element]
  congr 1
  apply Array.ext_getElem?
  intro i
  rw [Array.getElem?_map, Array.getElem?_mapIdx, Array.getElem?_mapIdx, Array.getElem?_map,
    hlinks]
  cases e.bindings[i]? <;> simp [Move.declared]

/-! ## Chains -/

/-- A scope that is there leads outward through nodes that are there. -/
theorem Linked.chain_lt (h : t.Linked) {scope : Option Nat} {chain : List Nat}
    (hc : t.ChainFrom scope chain) (hs : ∀ id, scope = some id → id < t.size) :
    ∀ id ∈ chain, id < t.size := by
  induction hc with
  | outside => simp
  | @within id outer hc ih =>
    refine List.forall_mem_cons.2 ⟨hs id rfl, ih fun p hp => ?_⟩
    obtain ⟨-, h1, h2⟩ := h.parent_lt hp
    exact Nat.lt_trans h1 h2

/-- A part of a tree that shares its root: what means something to names there. -/
structure Scoped (m : Move) (a t : Tree) : Prop extends Part m a t where
  node_root : m.node root = root
  linked : a.Linked
  whole : t.Linked
  top : a.element? root = none ∧ t.element? root = none

namespace Scoped

variable (h : Scoped m a t)
include h

theorem parent? (hlt : id < a.size) :
    t.parent? (m.node id) = (a.parent? id).map m.node := by
  by_cases hid : id = root
  · rw [hid, h.node_root, h.whole.root, h.linked.root]
    rfl
  · unfold Tree.parent?
    rw [h.node id hid hlt]
    cases a.node? id <;> rfl

theorem chainFrom {scope : Option Nat} {chain : List Nat} (hc : a.ChainFrom scope chain)
    (hs : ∀ id, scope = some id → id < a.size) :
    t.ChainFrom (scope.map m.node) (chain.map m.node) := by
  induction hc with
  | outside => exact .outside
  | @within id outer hc ih =>
    have hlt := hs id rfl
    refine .within ?_
    rw [h.parent? hlt]
    refine ih fun p hp => ?_
    exact Nat.lt_trans (h.linked.parent_lt hp).2.1 hlt

theorem variableOf? (name : String) (hlt : id < a.size) :
    t.variableOf? name (m.node id) = (a.variableOf? name id).map m.variableRef := by
  have helement : t.element? (m.node id) = (a.element? id).map m.element := by
    by_cases hid : id = root
    · rw [hid, h.node_root, h.top.1, h.top.2]
      rfl
    · exact h.element? hid hlt
  have hlast : ∀ e, (m.element e).lastVariable? name = e.lastVariable? name := by
    intro e
    have hsize : (m.element e).bindings.size = e.bindings.size := Array.size_map ..
    have hname : ∀ i : Nat, (m.element e).bindings[i]?.map Variable.name =
        e.bindings[i]?.map Variable.name := by
      intro i
      simp only [Move.element, Array.getElem?_map, Option.map_map]
      rfl
    unfold Element.lastVariable?
    simp only [hsize, hname]
  unfold Tree.variableOf?
  rw [helement]
  cases a.element? id with
  | none => rfl
  | some e =>
    simp only [Option.map_some, Option.bind_some, hlast, Option.map_map]
    rfl

/-- A name means the same in the whole. -/
theorem lookup? {scope : Option Nat} (hs : ∀ id, scope = some id → id < a.size) (name : String) :
    t.lookup? (scope.map m.node) name = (a.lookup? scope name).map m.variableRef := by
  have hchain := h.linked.chainFrom_scopeChain scope
  have hlt := h.linked.chain_lt hchain hs
  have hsame := (h.whole.chainFrom_scopeChain (scope.map m.node)).unique (h.chainFrom hchain hs)
  unfold Tree.lookup?
  rw [hsame, List.findSome?_map]
  generalize a.scopeChain scope = chain at hlt
  induction chain with
  | nil => rfl
  | cons id chain ih =>
    rw [List.findSome?_cons, List.findSome?_cons, Function.comp_apply,
      h.variableOf? name (hlt id (List.mem_cons_self ..))]
    cases a.variableOf? name id with
    | none => exact ih fun j hj => hlt j (List.mem_cons_of_mem id hj)
    | some v => rfl

theorem bind {scope : Option Nat} (hs : ∀ id, scope = some id → id < a.size) (c : Container) :
    t.bind (scope.map m.node) (m.container c) = m.container (a.bind scope c) := by
  simp only [Tree.bind, Move.container, Array.map_map]
  congr 2
  funext r
  simp only [Function.comp, Move.reference, h.lookup? hs, Option.map_or]

/-- The containers of the part are bound as they are in the tree of their own. -/
theorem bindAll : a.bindAll.Part m t.bindAll where
  inj := h.inj
  node id hid hlt := by
    rw [size_bindAll] at hlt
    rw [node?_bindAll, node?_bindAll, h.node id hid hlt]
    obtain ⟨n, hn⟩ := exists_node hlt
    rw [hn, Option.map_some, Option.map_some, Option.map_some]
    refine congrArg some (m.treeNode_mapContainers (fun c => ?_) fun c => ?_)
    · exact h.bind (fun j hj => Option.some.inj hj ▸ hlt) c
    · refine h.bind (fun p hp => ?_) c
      have hparent : a.parent? id = some p := by rw [Tree.parent?, hn, Option.bind_some, hp]
      exact Nat.lt_trans (h.linked.parent_lt hparent).2.1 hlt

end Scoped

/-! ## Two trees under one root -/

/-- The tree `t` has the nodes of `a` and behind them those of `b`, as `m` and `m'` move them, and the
children of both roots are children of its root. -/
structure Joins (m m' : Move) (a b t : Tree) : Prop where
  keeps : ∀ id, m.node id = id
  node_root : m'.node root = root
  behind : ∀ id, id ≠ root → m'.node id + 1 = a.size + id
  size : t.size + 1 = a.size + b.size
  front : a.Part m t
  back : b.Part m' t
  top : ∃ children children' e e' e'', a.node? root = some ⟨.root children, none, e⟩ ∧
    b.node? root = some ⟨.root children', none, e'⟩ ∧
    t.node? root = some ⟨.root (children ++ children'.map m'.node), none, e''⟩

/-- What means a variable means one of an element. -/
theorem uses_element {x : VariableRef × Script.Ident} (hx : x ∈ t.uses) :
    (t.element? x.1.element).isSome = true := by
  obtain ⟨uses, huses, hmem⟩ := List.mem_flatten.1 hx
  obtain ⟨s, -, rfl⟩ := List.mem_map.1 huses
  obtain ⟨r, -, hr⟩ := List.mem_filterMap.1 hmem
  obtain ⟨v, hv, rfl⟩ := Option.map_eq_some_iff.1 hr
  obtain ⟨y, hy, -⟩ := (lookup?_eq_some.1 hv).declares
  obtain ⟨e, he, -⟩ := Option.bind_eq_some_iff.1 hy
  rw [he]
  rfl

theorem element?_isSome (he : (t.element? id).isSome = true) : id < t.size := by
  obtain ⟨e, he⟩ := Option.isSome_iff_exists.1 he
  obtain ⟨n, hn, -⟩ := Option.bind_eq_some_iff.1 he
  exact lt_size hn

namespace Joins

variable {m' : Move} {b : Tree} (h : Joins m m' a b t)
include h

theorem element?_root : a.element? root = none ∧ b.element? root = none ∧ t.element? root = none := by
  obtain ⟨children, children', e, e', e'', ha, hb, ht⟩ := h.top
  exact ⟨element?_eq ha, element?_eq hb, element?_eq ht⟩

/-- The nodes in their order. -/
theorem nodes : ∃ n, n.containers = [] ∧ t.nodes.toList =
    n :: ((a.nodes.toList.drop 1).map m.treeNode ++ (b.nodes.toList.drop 1).map m'.treeNode) := by
  obtain ⟨children, children', e, e', e'', ha, hb, ht⟩ := h.top
  refine ⟨⟨.root (children ++ children'.map m'.node), none, e''⟩, rfl, ?_⟩
  have hsize := h.size
  have hapos := lt_size ha
  have hbpos := lt_size hb
  have hget : ∀ (x : Tree) (i : Nat), x.nodes.toList[i]? = x.node? i := fun x i => by
    rw [Array.getElem?_toList, node?]
  have hlen : (a.nodes.toList.drop 1).length = a.size - 1 := by simp [Tree.size]
  refine List.ext_getElem? fun i => ?_
  rw [hget]
  cases i with
  | zero => exact ht
  | succ i =>
    rw [List.getElem?_cons_succ]
    have hne : i + 1 ≠ root := Nat.succ_ne_zero i
    by_cases hi : i + 1 < a.size
    · rw [List.getElem?_append_left (by rw [List.length_map, hlen]; omega), List.getElem?_map,
        List.getElem?_drop, hget, Nat.add_comm 1 i, ← h.front.node _ hne hi, h.keeps]
    · rw [List.getElem?_append_right (by rw [List.length_map, hlen]; omega), List.length_map, hlen,
        List.getElem?_map, List.getElem?_drop, hget]
      obtain ⟨j, hj⟩ : ∃ j, i + 1 = a.size + j := ⟨i + 1 - a.size, by omega⟩
      have hindex : 1 + (i - (a.size - 1)) = j + 1 := by omega
      have hbehind := h.behind (j + 1) (Nat.succ_ne_zero j)
      have hplace : i + 1 = m'.node (j + 1) := by omega
      rw [hindex]
      by_cases hjb : j + 1 < b.size
      · rw [hplace, h.back.node (j + 1) (Nat.succ_ne_zero j) hjb]
      · have hnone : ∀ (x : Tree) (k : Nat), x.size ≤ k → x.node? k = none := fun x k hk => by
          rw [← Option.not_isSome_iff_eq_none, node?_isSome]
          exact Nat.not_lt.2 hk
        rw [hnone t _ (by omega), hnone b _ (by omega)]
        rfl

/-- The links in their order. -/
theorem links : t.links = a.links.map m.link ++ b.links.map m'.link := by
  have hdrop : ∀ x : Tree, x.element? root = none → (∃ children e, x.node? root =
      some ⟨.root children, none, e⟩) →
      x.links = ((x.nodes.toList.drop 1).map fun n =>
        (n.containers.map Container.links).flatten).flatten := by
    rintro x - ⟨children, e, hx⟩
    have hcons : x.nodes.toList = ⟨.root children, none, e⟩ :: x.nodes.toList.drop 1 := by
      refine List.ext_getElem? fun i => ?_
      cases i with
      | zero =>
        rw [Array.getElem?_toList]
        exact hx
      | succ i => rw [List.getElem?_cons_succ, List.getElem?_drop, Nat.add_comm 1 i]
    unfold Tree.links
    conv => lhs; rw [hcons]
    rfl
  have hmoved : ∀ (m : Move) (ns : List Node),
      ((ns.map m.treeNode).map fun n => (n.containers.map Container.links).flatten).flatten =
        ((ns.map fun n => (n.containers.map Container.links).flatten).flatten).map m.link := by
    intro m ns
    rw [List.map_map, List.map_flatten, List.map_map]
    refine congrArg List.flatten (List.map_congr_left fun n _ => ?_)
    simp only [Function.comp, m.containers_treeNode, List.map_map, List.map_flatten]
    refine congrArg List.flatten (List.map_congr_left fun c _ => ?_)
    exact m.links_container c
  obtain ⟨n, hn, hnodes⟩ := h.nodes
  obtain ⟨children, children', e, e', e'', ha, hb, -⟩ := h.top
  have hroot := h.element?_root
  rw [hdrop a hroot.1 ⟨children, e, ha⟩, hdrop b hroot.2.1 ⟨children', e', hb⟩, ← hmoved, ← hmoved,
    ← List.flatten_append, ← List.map_append]
  unfold Tree.links
  rw [hnodes, List.map_cons, hn]
  rfl

/-- Only the root of `b` goes to the root, and its other nodes go behind those of `a`. -/
theorem size_le (hid : id ≠ root) : a.size ≤ m'.node id := by
  have := h.behind id hid
  simp only [root] at hid
  omega

theorem scopedFront (ha : a.Linked) (ht : t.Linked) : Scoped m a t :=
  ⟨h.front, h.keeps root, ha, ht, h.element?_root.1, h.element?_root.2.2⟩

theorem scopedBack (hb : b.Linked) (ht : t.Linked) : Scoped m' b t :=
  ⟨h.back, h.node_root, hb, ht, h.element?_root.2.1, h.element?_root.2.2⟩

section
variable (ha : a.Linked) (hb : b.Linked) (ht : t.Linked)
include ha hb ht

theorem bindAll : Joins m m' a.bindAll b.bindAll t.bindAll where
  keeps := h.keeps
  node_root := h.node_root
  behind id hid := by rw [size_bindAll, h.behind id hid]
  size := by rw [size_bindAll, size_bindAll, size_bindAll, h.size]
  front := (h.scopedFront ha ht).bindAll
  back := (h.scopedBack hb ht).bindAll
  top := by
    obtain ⟨children, children', e, e', e'', hta, htb, htt⟩ := h.top
    refine ⟨children, children', e, e', e'', ?_, ?_, ?_⟩
    · rw [node?_bindAll, hta]
      rfl
    · rw [node?_bindAll, htb]
      rfl
    · rw [node?_bindAll, htt]
      rfl

section
variable (hfresh : a.Untied ∧ b.Untied ∧ t.Untied)
include hfresh

/-- What means a variable in one of the trees means it in the joined tree. -/
theorem uses : t.uses = a.uses.map m.link ++ b.uses.map m'.link := by
  rw [uses_eq hfresh.1, uses_eq hfresh.2.1, uses_eq hfresh.2.2]
  exact (h.bindAll ha hb ht).links

/-- A variable of the front part is meant by the references of that part. -/
theorem uses_front {i : Nat} (hlt : id < a.size) :
    (t.uses.filter (·.1 = ⟨m.node id, i⟩)).map Prod.snd =
      ((a.uses.filter (·.1 = ⟨id, i⟩)).map Prod.snd).map m.ident := by
  rw [h.uses ha hb ht hfresh, List.filter_append, List.filter_map, List.filter_map]
  have hfront : ((fun x : VariableRef × Script.Ident => decide (x.1 = ⟨m.node id, i⟩)) ∘ m.link) =
      fun x => decide (x.1 = ⟨id, i⟩) := by
    funext ⟨⟨j, k⟩, s⟩
    simp [Move.link, Move.variableRef, h.keeps]
  have hback : b.uses.filter
      ((fun x : VariableRef × Script.Ident => decide (x.1 = ⟨m.node id, i⟩)) ∘ m'.link) = [] := by
    rw [List.filter_eq_nil_iff]
    intro x hx hmem
    have helement := uses_element hx
    have hne : x.1.element ≠ root := by
      intro heq
      rw [heq, h.element?_root.2.1] at helement
      exact absurd helement (by decide)
    have hle := h.size_le hne
    have heq : m'.node x.1.element = m.node id :=
      congrArg VariableRef.element (of_decide_eq_true hmem)
    rw [h.keeps] at heq
    omega
  rw [hfront, hback, List.map_nil, List.append_nil, List.map_map, List.map_map]
  rfl

/-- So is one of the back part. -/
theorem uses_back {i : Nat} (hid : id ≠ root) :
    (t.uses.filter (·.1 = ⟨m'.node id, i⟩)).map Prod.snd =
      ((b.uses.filter (·.1 = ⟨id, i⟩)).map Prod.snd).map m'.ident := by
  rw [h.uses ha hb ht hfresh, List.filter_append, List.filter_map, List.filter_map]
  have hback : ((fun x : VariableRef × Script.Ident => decide (x.1 = ⟨m'.node id, i⟩)) ∘ m'.link) =
      fun x => decide (x.1 = ⟨id, i⟩) := by
    funext ⟨⟨j, k⟩, s⟩
    have hinj : m'.node j = m'.node id ↔ j = id := ⟨h.back.inj j id, congrArg _⟩
    simp [Move.link, Move.variableRef, hinj]
  have hfront : a.uses.filter
      ((fun x : VariableRef × Script.Ident => decide (x.1 = ⟨m'.node id, i⟩)) ∘ m.link) = [] := by
    rw [List.filter_eq_nil_iff]
    intro x hx hmem
    have hlt := element?_isSome (uses_element hx)
    have hle := h.size_le hid
    have heq : m.node x.1.element = m'.node id :=
      congrArg VariableRef.element (of_decide_eq_true hmem)
    rw [h.keeps] at heq
    omega
  rw [hfront, hback, List.map_nil, List.nil_append, List.map_map, List.map_map]
  rfl

/-- Resolving the joined tree joins the trees that are resolved. -/
theorem resolve : Joins m m' a.resolve b.resolve t.resolve := by
  have hbound := h.bindAll ha hb ht
  refine ⟨h.keeps, h.node_root, fun id hid => ?_, ?_, ⟨h.front.inj, fun id hid hlt => ?_⟩,
    ⟨h.back.inj, fun id hid hlt => ?_⟩, ?_⟩
  · rw [size_resolve, h.behind id hid]
  · rw [size_resolve, size_resolve, size_resolve, h.size]
  · rw [size_resolve] at hlt
    have hlt' : id < a.bindAll.size := by rwa [size_bindAll]
    rw [resolve_eq, resolve_eq, node?_addUses, node?_addUses, hbound.front.node id hid hlt',
      Option.map_map, Option.map_map]
    congr 1
    funext n
    exact (treeNode_usedBy m (fun i => h.uses_front ha hb ht hfresh hlt) n).symm
  · rw [size_resolve] at hlt
    have hlt' : id < b.bindAll.size := by rwa [size_bindAll]
    rw [resolve_eq, resolve_eq, node?_addUses, node?_addUses, hbound.back.node id hid hlt',
      Option.map_map, Option.map_map]
    congr 1
    funext n
    exact (treeNode_usedBy m' (fun i => h.uses_back ha hb ht hfresh hid) n).symm
  · obtain ⟨children, children', e, e', e'', hta, htb, htt⟩ := h.top
    exact ⟨children, children', e, e', e'', resolve_root hta, resolve_root htb, resolve_root htt⟩

end

end

end Joins

end Tree
end TemplateSyntax
