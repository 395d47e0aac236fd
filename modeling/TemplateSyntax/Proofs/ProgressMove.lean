import TemplateSyntax.Proofs.BuilderMove
import TemplateSyntax.Proofs.ReadingMove
import TemplateSyntax.Proofs.ReadingPasses

/-! # Reading what is embedded in a part of a tree

The nodes of one tree may be found in another one, at the places that they have moved to.  There
directives and mustaches are read as they are in the tree of their own, and the other nodes stay. -/

namespace TemplateSyntax

namespace Move

variable (m : Move)

theorem element_attributes_getElem? (e : Element) (i : Nat) :
    (m.element e).attributes[i]? = e.attributes[i]?.map m.anyAttribute :=
  Array.getElem?_map

/-- Putting a directive in the place of an attribute. -/
theorem element_setDirective (e : Element) (i : Nat) (d : ReadDirective) :
    m.element { e with
        attributes := e.attributes.set! i (.directive d.directive)
        bindings := e.bindings ++ d.bindings } =
      { m.element e with
        attributes := (m.element e).attributes.set! i (.directive (d.move m).directive)
        bindings := (m.element e).bindings ++ (d.move m).bindings } := by
  simp only [element, Array.set!_eq_setIfInBounds, Array.map_setIfInBounds, Array.map_append,
    ReadDirective.move, anyAttribute]

end Move

namespace Tree

/-- The nodes of a tree, apart from its root, are found in another one at the places that they move
to. -/
structure Part (m : Move) (a t : Tree) : Prop where
  inj : ∀ i j, m.node i = m.node j → i = j
  node : ∀ id, id ≠ root → id < a.size → t.node? (m.node id) = (a.node? id).map m.treeNode

namespace Part

variable {m : Move} {a t t' : Tree} {id : Nat}

theorem element? (h : a.Part m t) (hid : id ≠ root) (hlt : id < a.size) :
    t.element? (m.node id) = (a.element? id).map m.element := by
  unfold Tree.element?
  rw [h.node id hid hlt]
  cases a.node? id with
  | none => rfl
  | some n => exact m.treeNode_element? n

/-- The same change is made to a node in both trees. -/
theorem modify (h : a.Part m t) {f f' : Node → Node}
    (hf : ∀ n, a.node? id = some n → m.treeNode (f n) = f' (m.treeNode n)) :
    (a.modify id f).Part m (t.modify (m.node id) f') where
  inj := h.inj
  node j hj hlt := by
    rw [size_modify] at hlt
    rw [node?_modify, node?_modify, h.node j hj hlt]
    by_cases heq : id = j
    · subst heq
      rw [if_pos rfl, if_pos rfl]
      cases hn : a.node? id with
      | none => rfl
      | some n => exact congrArg some (hf n hn).symm
    · rw [if_neg heq, if_neg (mt (h.inj id j) heq)]

theorem modifyElement (h : a.Part m t) {f f' : Element → Element}
    (hf : ∀ e, m.element (f e) = f' (m.element e)) :
    (a.modifyElement id f).Part m (t.modifyElement (m.node id) f') :=
  h.modify fun n _ => m.treeNode_mapElement n hf

/-- Only the nodes of the part count. -/
theorem congr (h : a.Part m t)
    (hn : ∀ id, id ≠ root → id < a.size → t'.node? (m.node id) = t.node? (m.node id)) :
    a.Part m t' :=
  ⟨h.inj, fun id hid hlt => (hn id hid hlt).trans (h.node id hid hlt)⟩

end Part

/-- What holds of each attribute that is no directive. -/
def PlainOnly (t : Tree) (P : PlainAttribute → Prop) : Prop :=
  ∀ id e x, t.element? id = some e → .plain x ∈ e.attributes → P x

end Tree

namespace Template.Progress

variable {m : Move} {r r' : Reading} {p q p' q' : Progress}

/-- What is read of a part of a tree from `p` to `p'` is read in the tree as a whole from `q` to
`q'`. -/
structure Along (m : Move) (p q p' q' : Progress) : Prop where
  part : p'.tree.Part m q'.tree
  sizes : p'.tree.size = p.tree.size ∧ q'.tree.size = q.tree.size
  root : p'.tree.node? Tree.root = p.tree.node? Tree.root
  log : ∃ found, p'.log = p.log ++ found ∧ q'.log = q.log ++ found.map m.logEntry
  others : ∀ j, (∀ id, id ≠ Tree.root → id < p.tree.size → m.node id ≠ j) →
    q'.tree.node? j = q.tree.node? j

theorem Along.refl (h : p.tree.Part m q.tree) : Along m p q p q :=
  ⟨h, ⟨rfl, rfl⟩, rfl, ⟨#[], by simp⟩, fun _ _ => rfl⟩

theorem Along.trans {p'' q'' : Progress} (h : Along m p q p' q') (h' : Along m p' q' p'' q'') :
    Along m p q p'' q'' where
  part := h'.part
  sizes := ⟨h'.sizes.1.trans h.sizes.1, h'.sizes.2.trans h.sizes.2⟩
  root := h'.root.trans h.root
  log := by
    obtain ⟨found, hp, hq⟩ := h.log
    obtain ⟨found', hp', hq'⟩ := h'.log
    exact ⟨found ++ found', by rw [hp', hp, Array.append_assoc],
      by rw [hq', hq, Array.map_append, Array.append_assoc]⟩
  others j hj := by
    rw [h'.others j (by rw [h.sizes.1]; exact hj), h.others j hj]

/-- The texts of an attribute are mapped to the places that they have moved to. -/
structure MapsAttribute (m : Move) (r r' : Reading) (x : PlainAttribute) : Prop where
  key : r.MapsKey m r' x.key
  value : ∀ l, x.value = some l → r.MapsValue m r' l

/-- Reading a directive leaves the other attributes as they are. -/
theorem readDirective_plainOnly {P : PlainAttribute → Prop} (h : p.tree.PlainOnly P)
    (d : Nat × Nat) : (p.readDirective r d).tree.PlainOnly P := by
  by_cases ho : ∃ x, ((p.tree.element? d.1).bind fun e => e.attributes[d.2]?) = some (.plain x)
  · obtain ⟨y, hy⟩ := ho
    obtain ⟨e₀, he₀, hget⟩ := Option.bind_eq_some_iff.1 hy
    rw [readDirective_eq r p he₀ hget]
    intro id e x he hx
    by_cases hid : d.1 = id
    · subst hid
      rw [Tree.element?_modifyElement, if_pos rfl, he₀, Option.map_some] at he
      obtain rfl := Option.some.inj he
      rcases Array.mem_or_eq_of_mem_setIfInBounds hx with hx | hx
      · exact h d.1 e₀ x he₀ hx
      · cases hx
    · rw [Tree.element?, Tree.modifyElement, Tree.node?_modify_of_ne hid] at he
      exact h id e x he hx
  · rw [readDirective_of_ne r p (not_exists.1 ho)]
    exact h

theorem appendList_log (log log' : Array LogEntry) (found : List LogEntry) :
    log ++ found = log ++ found.toArray ∧
      log' ++ found.map m.logEntry = log' ++ found.toArray.map m.logEntry := by
  constructor <;> apply Array.toList_inj.1 <;> simp

/-- A directive is read in the part as in the whole. -/
theorem readDirective_along (h : p.tree.Part m q.tree) (hr : r.Follows m r') {d : Nat × Nat}
    (hd : d.1 ≠ Tree.root ∧ d.1 < p.tree.size) (hx : p.tree.PlainOnly (MapsAttribute m r r')) :
    Along m p q (p.readDirective r d) (q.readDirective r' (m.place d)) := by
  have hattribute : ((q.tree.element? (m.node d.1)).bind fun e => e.attributes[d.2]?) =
      ((p.tree.element? d.1).bind fun e => e.attributes[d.2]?).map m.anyAttribute := by
    rw [h.element? hd.1 hd.2]
    cases p.tree.element? d.1 with
    | none => rfl
    | some e => exact m.element_attributes_getElem? e d.2
  cases ho : (p.tree.element? d.1).bind fun e => e.attributes[d.2]? with
  | none =>
    rw [ho, Option.map_none] at hattribute
    rw [readDirective_of_ne r p (by simp [ho]),
      readDirective_of_ne r' q (by simp [hattribute, Move.place])]
    exact ⟨h, ⟨rfl, rfl⟩, rfl, ⟨#[], by simp [check]⟩, fun _ _ => rfl⟩
  | some x =>
    rw [ho, Option.map_some] at hattribute
    cases x with
    | directive y =>
      rw [readDirective_of_ne r p (by simp [ho]),
        readDirective_of_ne r' q (by simp [hattribute, Move.place, Move.anyAttribute])]
      exact ⟨h, ⟨rfl, rfl⟩, rfl, ⟨#[], by simp [check]⟩, fun _ _ => rfl⟩
    | plain x =>
      obtain ⟨e, he, hget⟩ := Option.bind_eq_some_iff.1 ho
      obtain ⟨e', he', hget'⟩ := Option.bind_eq_some_iff.1 hattribute
      have hmaps := hx d.1 e x he (Array.mem_of_getElem? hget)
      have hread := hr.directive hmaps.key hmaps.value
      have hq := readDirective_eq r' q (show q.tree.element? (m.place d).1 = some e' from he') hget'
      rw [readDirective_eq r p he hget, hq, hread]
      refine ⟨?_, ⟨Tree.size_modify .., Tree.size_modify ..⟩, Tree.node?_modify_of_ne hd.1, ?_,
        fun j hj => ?_⟩
      · exact h.modifyElement fun e => m.element_setDirective e d.2 (r.directive x)
      · exact ⟨_, appendList_log p.log _ (r.directive x).log⟩
      · exact Tree.node?_modify_of_ne (hj d.1 hd.1 hd.2)

theorem readDirectives_along (h : p.tree.Part m q.tree) (hr : r.Follows m r')
    {ds : List (Nat × Nat)} (hd : ∀ d ∈ ds, d.1 ≠ Tree.root ∧ d.1 < p.tree.size)
    (hx : p.tree.PlainOnly (MapsAttribute m r r')) :
    Along m p q (ds.foldl (readDirective r) p) ((ds.map m.place).foldl (readDirective r') q) := by
  induction ds generalizing p q with
  | nil => exact .refl h
  | cons d ds ih =>
    have hstep := readDirective_along h hr (hd d (List.mem_cons_self ..)) hx
    refine hstep.trans (ih hstep.part (fun d' hd' => ?_) (readDirective_plainOnly hx d))
    rw [hstep.sizes.1]
    exact hd d' (List.mem_cons_of_mem d hd')

/-- So is a mustache. -/
theorem readMustache_along (h : p.tree.Part m q.tree) (hr : r.Follows m r') {y : PendingMustache}
    (hy : y.node ≠ Tree.root ∧ y.node < p.tree.size) (hx : r.Maps m r' y.value.toList y.start) :
    Along m p q (p.readMustache r y) (q.readMustache r' (m.pendingMustache y)) := by
  obtain ⟨n, hn⟩ := Tree.exists_node hy.2
  have hn' : q.tree.node? (m.pendingMustache y).node = some (m.treeNode n) := by
    show q.tree.node? (m.node y.node) = some (m.treeNode n)
    rw [h.node y.node hy.1 hy.2, hn, Option.map_some]
  have hread := hr.mustache hx n.extent
  have hq : q.readMustache r' (m.pendingMustache y) =
      { q with
        tree := q.tree.modify (m.node y.node) fun n' =>
          { n' with content := .mustache ((r.mustache y.value y.start n.extent).move m).container }
        log := q.log ++ ((r.mustache y.value y.start n.extent).move m).faults } := by
    rw [← hread]
    exact readMustache_eq r' q hn'
  rw [readMustache_eq r p hn, hq]
  refine ⟨h.modify fun n' _ => rfl, ⟨Tree.size_modify .., Tree.size_modify ..⟩,
    Tree.node?_modify_of_ne hy.1, ?_, fun j hj => ?_⟩
  · exact ⟨_, appendList_log p.log _ (r.mustache y.value y.start n.extent).faults⟩
  · exact Tree.node?_modify_of_ne (hj y.node hy.1 hy.2)

theorem readMustaches_along (h : p.tree.Part m q.tree) (hr : r.Follows m r')
    {ys : List PendingMustache} (hy : ∀ y ∈ ys, y.node ≠ Tree.root ∧ y.node < p.tree.size)
    (hx : ∀ y ∈ ys, r.Maps m r' y.value.toList y.start) :
    Along m p q (ys.foldl (readMustache r) p)
      ((ys.map m.pendingMustache).foldl (readMustache r') q) := by
  induction ys generalizing p q with
  | nil => exact .refl h
  | cons y ys ih =>
    have hstep := readMustache_along h hr (hy y (List.mem_cons_self ..))
      (hx y (List.mem_cons_self ..))
    refine hstep.trans (ih hstep.part (fun y' hy' => ?_) fun y' hy' => hx y' (List.mem_cons_of_mem y hy'))
    rw [hstep.sizes.1]
    exact hy y' (List.mem_cons_of_mem y hy')

end Template.Progress
end TemplateSyntax
