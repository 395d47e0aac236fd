import Mathlib.Data.List.Basic
import TemplateSyntax.Proofs.TreeSpans
import TemplateSyntax.Tree.Resolution

/-! # Binding all references at once

Resolving a tree writes back one reference after the other.  It comes to the same as a map over the
tree that binds the references of all containers at once, after which the identifiers are put down with
their variables: what is written at one place is seen at no other place, and no write changes the
identifier of a reference. -/

namespace TemplateSyntax

/-! ## Containers -/

/-- The directive with a change made to its containers.  `f` gets the node that the references
of a container are looked up from. -/
def Directive.mapContainers (f : Option Nat → Container → Container) (element : Nat)
    (parent : Option Nat) (d : Directive) : Directive :=
  { d with
    key := { d.key with
      argument := d.key.argument.map fun
        | .dynamic c => .dynamic (f (some element) c)
        | .fixed name => .fixed name }
    value := d.value.map (f (d.valueScope element parent)) }

/-- The containers of a directive: the argument, then the value. -/
def Directive.containers (d : Directive) : List Container :=
  (match d.key.argument with
    | some (.dynamic c) => [c]
    | _ => []) ++ d.value.toList

namespace Attribute

/-- The attribute with a change made to its containers. -/
def mapContainers (f : Option Nat → Container → Container) (element : Nat)
    (parent : Option Nat) : Attribute → Attribute
  | plain a => plain a
  | directive d => directive (d.mapContainers f element parent)

/-- The containers of an attribute. -/
def containers : Attribute → List Container
  | plain _ => []
  | directive d => d.containers

end Attribute

namespace Node

/-- The node of an index with a change made to its containers. -/
def mapContainers (f : Option Nat → Container → Container) (id : Nat) (n : Node) : Node :=
  match n.content with
  | .mustache c => { n with content := .mustache (f n.parent c) }
  | .element e =>
    let attributes := e.attributes.map (·.mapContainers f id n.parent)
    { n with content := .element { e with attributes } }
  | _ => n

/-- The containers of a node, in order. -/
def containers (n : Node) : List Container :=
  match n.content with
  | .mustache c => [c]
  | .element e => (e.attributes.toList.map Attribute.containers).flatten
  | _ => []

end Node

/-- The references that mean a variable, and the variable of each. -/
def Container.links (c : Container) : List (VariableRef × Script.Ident) :=
  c.references.toList.filterMap fun r => r.target.map fun v => (v, r.ident)

namespace Tree

variable (t : Tree)

/-- The container with its references bound. -/
def bind (scope : Option Nat) (c : Container) : Container :=
  { c with references := c.references.map fun r =>
      { r with target := (t.lookup? scope r.name).or r.target } }

/-- The tree with the references of all containers bound. -/
def bindAll : Tree := ⟨t.nodes.mapIdx (Node.mapContainers t.bind)⟩

/-- The bound references of a tree, in the order of the containers. -/
def links : List (VariableRef × Script.Ident) :=
  (t.nodes.toList.map fun n => (n.containers.map Container.links).flatten).flatten

/-- The references of a container that mean a variable, by their identifiers. -/
def usesIn (s : Slot) : List (VariableRef × Script.Ident) :=
  s.container.references.toList.filterMap fun r =>
    (t.lookup? s.scope r.name).map fun v => (v, r.ident)

/-- All references that mean a variable, by their identifiers. -/
def uses : List (VariableRef × Script.Ident) := (t.slots.map t.usesIn).flatten

/-- Puts identifiers down with the variables they mean. -/
def addUses (uses : List (VariableRef × Script.Ident)) : Tree :=
  uses.foldl (fun t (v, id) => t.addUse v id) t

theorem size_bindAll : t.bindAll.size = t.size := by simp [bindAll, size]

theorem node?_bindAll (id : Nat) :
    t.bindAll.node? id = (t.node? id).map (Node.mapContainers t.bind id) := by
  simp [bindAll, node?]

theorem size_addUse (v : VariableRef) (id : Script.Ident) : (t.addUse v id).size = t.size :=
  t.size_modify ..

theorem size_addUses (uses : List (VariableRef × Script.Ident)) :
    (t.addUses uses).size = t.size := by
  induction uses generalizing t with
  | nil => rfl
  | cons use uses ih =>
    rw [addUses, List.foldl_cons]
    exact (ih (t.addUse use.1 use.2)).trans (t.size_addUse use.1 use.2)

/-- Two trees with the same nodes are the same. -/
theorem ext_node? {t t' : Tree} (h : ∀ id, t.node? id = t'.node? id) : t = t' := by
  obtain ⟨nodes⟩ := t
  exact congrArg Tree.mk (Array.ext_getElem? h)

/-- Changes that have nothing to do with each other may be made in any order. -/
theorem modify_comm {f g : Node → Node} (h : ∀ n, g (f n) = f (g n)) (i j : Nat) :
    (t.modify i f).modify j g = (t.modify j g).modify i f := by
  refine ext_node? fun id => ?_
  simp only [node?_modify]
  by_cases hi : i = id
  · by_cases hj : j = id
    · rw [if_pos hi, if_pos hj, if_pos hi, if_pos hj, Option.map_map, Option.map_map]
      exact congrArg (fun f => (t.node? id).map f) (funext h)
    · rw [if_neg hj, if_neg hj]
  · rw [if_neg hi, if_neg hi]

end Tree

/-! ## Places -/

theorem Attribute.argument?_mapArgument (f : Container → Container) (a : Attribute) :
    (a.mapArgument f).argument? = a.argument?.map f := by
  rcases a with a | ⟨⟨name, argument, modifiers, keyExtent⟩, value, extent⟩
  · rfl
  · rcases argument with - | (- | -) <;> rfl

theorem Attribute.value?_mapArgument (f : Container → Container) (a : Attribute) :
    (a.mapArgument f).value? = a.value? := by
  rcases a with a | ⟨⟨name, argument, modifiers, keyExtent⟩, value, extent⟩
  · rfl
  · rcases argument with - | (- | -) <;> rfl

theorem Attribute.argument?_mapValue (f : Container → Container) (a : Attribute) :
    (a.mapValue f).argument? = a.argument? := by
  rcases a with a | ⟨⟨name, argument, modifiers, keyExtent⟩, value, extent⟩
  · rfl
  · rcases argument with - | (- | -) <;> rfl

theorem Attribute.value?_mapValue (f : Container → Container) (a : Attribute) :
    (a.mapValue f).value? = a.value?.map f := by
  cases a <;> rfl

namespace Node

variable {n n' : Node}

/-- The attribute of an index, if the node is an element. -/
def attribute? (n : Node) (i : Nat) : Option Attribute := n.element?.bind fun e => e.attributes[i]?

/-- The container at a place in the node. -/
def containerAt? (n : Node) : Place → Option Container
  | .mustache _ => n.mustache?
  | .argument _ i => (n.attribute? i).bind Attribute.argument?
  | .value _ i => (n.attribute? i).bind Attribute.value?

theorem attribute?_mapAttribute (f : Attribute → Attribute) (i j : Nat) :
    (n.mapAttribute i f).attribute? j =
      if i = j then (n.attribute? j).map f else n.attribute? j := by
  obtain ⟨content, parent, extent⟩ := n
  cases content with
  | element e => exact Array.getElem?_modify
  | _ => split <;> rfl

theorem mustache?_mapAttribute (f : Attribute → Attribute) (i : Nat) :
    (n.mapAttribute i f).mustache? = n.mustache? := by
  obtain ⟨content, parent, extent⟩ := n
  cases content <;> rfl

/-- A change at one place of a node is seen there only. -/
theorem containerAt?_mapContainer (f : Container → Container) {p q : Place}
    (hnode : p.node = q.node) :
    (n.mapContainer f p).containerAt? q =
      if p = q then (n.containerAt? q).map f else n.containerAt? q := by
  have hattribute : ∀ (g : Attribute → Attribute) (x : Attribute → Option Container) (i j : Nat),
      ((n.mapAttribute i g).attribute? j).bind x =
        if i = j then (n.attribute? j).bind fun a => x (g a) else (n.attribute? j).bind x := by
    intro g x i j
    rw [attribute?_mapAttribute]
    split
    · exact Option.bind_map ..
    · rfl
  cases p with
  | mustache id =>
    obtain ⟨content, parent, extent⟩ := n
    cases q with
    | mustache id' =>
      obtain rfl : id = id' := hnode
      rw [if_pos rfl]
      cases content <;> rfl
    | argument id' i | value id' i =>
      rw [if_neg (by simp)]
      cases content <;> rfl
  | argument id i =>
    obtain rfl : id = q.node := hnode
    cases q with
    | mustache id' => exact (mustache?_mapAttribute ..).trans (if_neg (by simp)).symm
    | argument id' j =>
      refine (hattribute ..).trans ?_
      simp only [Attribute.argument?_mapArgument, Place.node, Place.argument.injEq, true_and,
        containerAt?, Option.map_bind, Function.comp_def]
    | value id' j =>
      refine (hattribute ..).trans ?_
      simp only [Attribute.value?_mapArgument, ite_self, containerAt?, reduceCtorEq, if_false]
  | value id i =>
    obtain rfl : id = q.node := hnode
    cases q with
    | mustache id' => exact (mustache?_mapAttribute ..).trans (if_neg (by simp)).symm
    | argument id' j =>
      refine (hattribute ..).trans ?_
      simp only [Attribute.argument?_mapValue, ite_self, containerAt?, reduceCtorEq, if_false]
    | value id' j =>
      refine (hattribute ..).trans ?_
      simp only [Attribute.value?_mapValue, Place.node, Place.value.injEq, true_and,
        containerAt?, Option.map_bind, Function.comp_def]

/-- The node without what its containers hold. -/
def bare (n : Node) : Node := n.mapContainers (fun _ _ => default) 0

end Node

theorem Node.bare_mapContainers (n : Node) (f : Option Nat → Container → Container) (id : Nat) :
    (n.mapContainers f id).bare = n.bare := by
  obtain ⟨content, parent, extent⟩ := n
  cases content with
  | element e =>
    simp only [bare, mapContainers, Array.map_map]
    congr 4
    funext a
    rcases a with a | ⟨⟨name, argument, modifiers, keyExtent⟩, value, extent⟩
    · rfl
    · rcases argument with _ | (_ | _) <;> cases value <;> rfl
  | _ => rfl

theorem Node.bare_mapAttribute (n : Node) {f : Attribute → Attribute} (i : Nat)
    (h : ∀ a parent, (f a).mapContainers (fun _ _ => default) 0 parent =
      a.mapContainers (fun _ _ => default) 0 parent) : (n.mapAttribute i f).bare = n.bare := by
  obtain ⟨content, parent, extent⟩ := n
  cases content with
  | element e =>
    simp only [mapAttribute, mapElement, bare, mapContainers]
    congr 3
    refine Array.ext_getElem? fun j => ?_
    rw [Array.getElem?_map, Array.getElem?_map, Array.getElem?_modify]
    split
    · rw [Option.map_map]
      exact congrArg (fun g => (e.attributes[j]?).map g) (funext fun a => h a parent)
    · rfl
  | _ => rfl

theorem Node.bare_mapContainer (n : Node) (f : Container → Container) (p : Place) :
    (n.mapContainer f p).bare = n.bare := by
  cases p with
  | mustache id =>
    obtain ⟨content, parent, extent⟩ := n
    cases content <;> rfl
  | argument id i =>
    refine n.bare_mapAttribute i fun a parent => ?_
    rcases a with a | ⟨⟨name, argument, modifiers, keyExtent⟩, value, extent⟩
    · rfl
    · rcases argument with _ | (_ | _) <;> rfl
  | value id i =>
    refine n.bare_mapAttribute i fun a parent => ?_
    rcases a with a | ⟨key, value, extent⟩
    · rfl
    · cases value <;> rfl

/-- An attribute is made up of what it is without its containers, and those. -/
theorem Attribute.ext_containers {a a' : Attribute} {parent parent' : Option Nat}
    (hbare : a.mapContainers (fun _ _ => default) 0 parent =
      a'.mapContainers (fun _ _ => default) 0 parent')
    (hargument : a.argument? = a'.argument?) (hvalue : a.value? = a'.value?) : a = a' := by
  rcases a with a | ⟨⟨name, argument, modifiers, keyExtent⟩, value, extent⟩ <;>
    rcases a' with a' | ⟨⟨name', argument', modifiers', keyExtent'⟩, value', extent'⟩
  · exact hbare
  · exact absurd hbare nofun
  · exact absurd hbare nofun
  · obtain rfl : value = value' := hvalue
    simp only [mapContainers, Directive.mapContainers, directive.injEq, Directive.mk.injEq,
      DirectiveKey.mk.injEq] at hbare
    obtain ⟨⟨rfl, hkind, rfl, rfl⟩, -, rfl⟩ := hbare
    obtain rfl : argument = argument' := by
      rcases argument with - | (fixed | c) <;> rcases argument' with - | (fixed' | c')
      case some.dynamic.some.dynamic =>
        exact congrArg (fun c => some (DirectiveArgument.dynamic c)) (Option.some.inj hargument)
      all_goals first | rfl | exact hkind | exact absurd hkind nofun
    rfl

/-- So is a node. -/
theorem Node.ext_containers {n n' : Node} (hbare : n.bare = n'.bare) (id : Nat)
    (hplaces : ∀ q : Place, q.node = id → n.containerAt? q = n'.containerAt? q) : n = n' := by
  obtain ⟨content, parent, extent⟩ := n
  obtain ⟨content', parent', extent'⟩ := n'
  have hattribute : ∀ {a a' : Option Attribute}, a.bind Attribute.argument? = a'.bind Attribute.argument? →
      a.bind Attribute.value? = a'.bind Attribute.value? →
      a.map (·.mapContainers (fun _ _ => default) 0 parent) =
        a'.map (·.mapContainers (fun _ _ => default) 0 parent') → a = a' := by
    intro a a' hargument hvalue hmap
    cases a with
    | none => exact (Option.map_eq_none_iff.1 hmap.symm).symm
    | some a =>
      obtain ⟨a', rfl, heq⟩ := Option.map_eq_some_iff.1 hmap.symm
      exact congrArg some (Attribute.ext_containers heq.symm hargument hvalue)
  cases content <;> cases content' <;>
    simp only [bare, mapContainers, Node.mk.injEq, NodeContent.element.injEq, reduceCtorEq, false_and]
      at hbare
  case root.root | text.text => simp_all
  case mustache.mustache c c' =>
    obtain ⟨-, rfl, rfl⟩ := hbare
    obtain rfl : c = c' := Option.some.inj (hplaces (.mustache id) rfl)
    rfl
  case element.element e e' =>
    obtain ⟨helement, rfl, rfl⟩ := hbare
    obtain ⟨name, rawName, ns, selfClosing, attributes, startTag, endTag, children, bindings⟩ := e
    obtain ⟨name', rawName', ns', selfClosing', attributes', startTag', endTag', children', bindings'⟩ := e'
    obtain ⟨rfl, rfl, rfl, rfl, hattributes, rfl, rfl, rfl, rfl⟩ := Element.mk.inj helement
    obtain rfl : attributes = attributes' := by
      refine Array.ext_getElem? fun i => ?_
      refine hattribute (hplaces (.argument id i) rfl) (hplaces (.value id i) rfl) ?_
      rw [← Array.getElem?_map, ← Array.getElem?_map, hattributes]
    rfl

namespace Tree

variable {t : Tree} {p q : Place}

theorem containerAt?_eq (t : Tree) (q : Place) :
    t.containerAt? q = (t.node? q.node).bind (·.containerAt? q) := by
  cases q with
  | mustache id => rfl
  | argument id i | value id i =>
    cases hn : t.node? id <;> simp [containerAt?, attribute?, element?, Place.node,
      Node.containerAt?, Node.attribute?, hn]

theorem containerAt?_congr {t' : Tree}
    (h : (t'.node? q.node).map (·.containerAt? q) = (t.node? q.node).map (·.containerAt? q)) :
    t'.containerAt? q = t.containerAt? q := by
  have hbind := congrArg (Option.bind · id) h
  rw [Option.bind_map, Option.bind_map] at hbind
  rw [containerAt?_eq, containerAt?_eq]
  exact hbind

theorem containerAt?_modifyContainer (t : Tree) (f : Container → Container) (p q : Place) :
    (t.modifyContainer p f).containerAt? q =
      if p = q then (t.containerAt? q).map f else t.containerAt? q := by
  rw [containerAt?_eq, containerAt?_eq, modifyContainer, node?_modify]
  by_cases hnode : p.node = q.node
  · rw [if_pos hnode]
    cases t.node? q.node with
    | none => exact (ite_self _).symm
    | some n => exact n.containerAt?_mapContainer f hnode
  · rw [if_neg hnode, if_neg fun heq => hnode (congrArg Place.node heq)]

theorem containerAt?_addUse (t : Tree) (v : VariableRef) (id : Script.Ident) (q : Place) :
    (t.addUse v id).containerAt? q = t.containerAt? q := by
  refine containerAt?_congr (map_node?_modify _ fun n _ => ?_)
  obtain ⟨content, parent, extent⟩ := n
  cases content <;> cases q <;> rfl

/-- A tree is made up of what it is without its containers, and those. -/
theorem ext_containers {t t' : Tree}
    (hbare : ∀ id, (t.node? id).map Node.bare = (t'.node? id).map Node.bare)
    (hplaces : ∀ q, t.containerAt? q = t'.containerAt? q) : t = t' := by
  refine ext_node? fun id => ?_
  have hid := hbare id
  cases hn : t.node? id with
  | none =>
    rw [hn] at hid
    exact (Option.map_eq_none_iff.1 hid.symm).symm
  | some n =>
    rw [hn] at hid
    obtain ⟨n', hn', heq⟩ := Option.map_eq_some_iff.1 hid.symm
    rw [hn']
    refine congrArg some (Node.ext_containers heq.symm id fun q hq => ?_)
    have hsame := hplaces q
    rw [containerAt?_eq, containerAt?_eq, hq, hn, hn'] at hsame
    exact hsame

/-! ## Slots -/

/-- What a search for one key finds in a list of lists. -/
theorem filter_zipIdx_flatten {α β : Type} {f : α → Nat → List β} {p : β → Bool} {k : Nat}
    (h : ∀ x i, i ≠ k → (f x i).filter p = []) (l : List α) :
    (l.zipIdx.map fun (x, i) => f x i).flatten.filter p =
      ((l[k]?).map fun x => (f x k).filter p).getD [] := by
  suffices hfrom : ∀ start, ((l.zipIdx start).map fun (x, i) => f x i).flatten.filter p =
      if start ≤ k then ((l[k - start]?).map fun x => (f x k).filter p).getD [] else [] by
    simpa using hfrom 0
  induction l with
  | nil => simp
  | cons x l ih =>
    intro start
    rw [List.zipIdx_cons, List.map_cons, List.flatten_cons, List.filter_append, ih]
    rcases Nat.lt_trichotomy start k with hlt | rfl | hlt
    · obtain ⟨d, rfl⟩ := Nat.exists_eq_add_of_lt hlt
      have hrest : start + d + 1 - (start + 1) = d := by omega
      have hwhole : start + d + 1 - start = d + 1 := by omega
      rw [h x start (Nat.ne_of_lt hlt), if_pos (Nat.succ_le_of_lt hlt), if_pos (Nat.le_of_lt hlt),
        List.nil_append, hrest, hwhole, List.getElem?_cons_succ]
    · rw [if_neg (Nat.not_succ_le_self start), if_pos (Nat.le_refl start), Nat.sub_self,
        List.append_nil]
      rfl
    · rw [h x start (Nat.ne_of_gt hlt), if_neg (by omega), if_neg (by omega)]
      rfl

end Tree

/-- The container of an attribute at a place, with the node that its references are looked up from. -/
def Attribute.slotAt? (parent : Option Nat) (a : Attribute) (q : Place) : Option Slot :=
  match q, a with
  | .argument id _, a => a.argument?.map fun c => ⟨q, some id, c⟩
  | .value id _, .directive d => d.value.map fun c => ⟨q, d.valueScope id parent, c⟩
  | _, _ => none

/-- The container at a place in a node. -/
def Node.slotAt? (n : Node) (q : Place) : Option Slot :=
  match q with
  | .mustache _ => n.mustache?.map fun c => ⟨q, n.parent, c⟩
  | .argument _ i | .value _ i => (n.attribute? i).bind (·.slotAt? n.parent q)

section
variable {q : Place} {id i j : Nat} {parent : Option Nat}

theorem Attribute.place_slots {a : Attribute} {s : Slot} (h : s ∈ a.slots id parent i) :
    s.place = .argument id i ∨ s.place = .value id i := by
  rcases a with a | ⟨⟨name, argument, modifiers, keyExtent⟩, value, extent⟩
  · exact absurd h List.not_mem_nil
  · rcases List.mem_append.1 h with h | h
    · rcases argument with _ | (_ | c)
      · exact absurd h List.not_mem_nil
      · exact absurd h List.not_mem_nil
      · exact .inl (List.mem_singleton.1 h ▸ rfl)
    · cases value with
      | none => exact absurd h List.not_mem_nil
      | some c => exact .inr (List.mem_singleton.1 h ▸ rfl)

theorem Attribute.filter_slots (a : Attribute) (hq : q = .argument id i ∨ q = .value id i) :
    (a.slots id parent i).filter (·.place = q) = (a.slotAt? parent q).toList := by
  rcases a with a | ⟨⟨name, argument, modifiers, keyExtent⟩, value, extent⟩
  · rcases hq with rfl | rfl <;> rfl
  · rcases hq with rfl | rfl <;> rcases argument with - | (- | -) <;> cases value <;>
      simp [slots, slotAt?, argument?]

theorem Node.place_slots {n : Node} {s : Slot} (h : s ∈ n.slots id) : s.place.node = id := by
  obtain ⟨content, parent, extent⟩ := n
  cases content with
  | root _ | text _ => exact absurd h List.not_mem_nil
  | mustache c => exact List.mem_singleton.1 h ▸ rfl
  | element e =>
    obtain ⟨ss, hss, hs⟩ := List.mem_flatten.1 h
    obtain ⟨⟨a, i⟩, -, rfl⟩ := List.mem_map.1 hss
    rcases Attribute.place_slots hs with hp | hp <;> rw [hp] <;> rfl

/-- At each place of a node there is one container at most. -/
theorem Node.filter_slots (n : Node) (q : Place) :
    (n.slots q.node).filter (·.place = q) = (n.slotAt? q).toList := by
  obtain ⟨content, parent, extent⟩ := n
  cases content with
  | root _ | text _ => cases q <;> rfl
  | mustache c =>
    cases q with
    | mustache id => simp [slots, slotAt?, mustache?, Place.node]
    | argument id i | value id i => rfl
  | element e =>
    have hother : ∀ (q : Place) (i : Nat), q = .argument q.node i ∨ q = .value q.node i →
        ∀ (a : Attribute) (j : Nat), j ≠ i →
          (a.slots q.node parent j).filter (·.place = q) = [] := by
      intro q i hq a j hj
      refine List.filter_eq_nil_iff.2 fun s hs heq => hj ?_
      have hplace := Attribute.place_slots hs
      rw [of_decide_eq_true heq] at hplace
      rcases hq with hq | hq <;> rcases hplace with hp | hp
      · exact (Place.argument.inj (hp.symm.trans hq)).2
      · cases hp.symm.trans hq
      · cases hp.symm.trans hq
      · exact (Place.value.inj (hp.symm.trans hq)).2
    have hattributes : ∀ (q : Place) (i : Nat), q = .argument q.node i ∨ q = .value q.node i →
        ((Node.mk (.element e) parent extent).slots q.node).filter (·.place = q) =
          (e.attributes[i]?.bind (·.slotAt? parent q)).toList := by
      intro q i hq
      dsimp only [slots]
      rw [Tree.filter_zipIdx_flatten (hother q i hq), Array.getElem?_toList]
      cases e.attributes[i]? with
      | none => rfl
      | some a => exact a.filter_slots hq
    cases q with
    | mustache id =>
      refine List.filter_eq_nil_iff.2 fun s hs heq => ?_
      obtain ⟨ss, hss, hs⟩ := List.mem_flatten.1 hs
      obtain ⟨⟨a, i⟩, -, rfl⟩ := List.mem_map.1 hss
      rcases Attribute.place_slots hs with hp | hp <;> simp [hp] at heq
    | argument id i => exact hattributes (.argument id i) i (.inl rfl)
    | value id i => exact hattributes (.value id i) i (.inr rfl)

theorem Node.slotAt?_container (n : Node) (q : Place) :
    (n.slotAt? q).map Slot.container = n.containerAt? q := by
  cases q with
  | mustache id => simp [slotAt?, containerAt?, Function.comp_def]
  | argument id i =>
    cases ha : n.attribute? i <;>
      simp [slotAt?, containerAt?, Attribute.slotAt?, Function.comp_def, ha]
  | value id i =>
    cases ha : n.attribute? i with
    | none => simp [slotAt?, containerAt?, ha]
    | some a =>
      cases a <;> simp [slotAt?, containerAt?, Attribute.slotAt?, Attribute.value?, Function.comp_def, ha]

theorem Attribute.argument?_mapContainers (a : Attribute) (f : Option Nat → Container → Container) :
    (a.mapContainers f id parent).argument? =
      (a.slotAt? parent (.argument id i)).map fun s => f s.scope s.container := by
  rcases a with a | ⟨⟨name, argument, modifiers, keyExtent⟩, value, extent⟩
  · rfl
  · rcases argument with - | (- | -) <;> rfl

theorem Attribute.value?_mapContainers (a : Attribute) (f : Option Nat → Container → Container) :
    (a.mapContainers f id parent).value? =
      (a.slotAt? parent (.value id i)).map fun s => f s.scope s.container := by
  rcases a with a | ⟨key, value, extent⟩
  · rfl
  · cases value <;> rfl

/-- The containers of a node are changed each at its place. -/
theorem Node.containerAt?_mapContainers (n : Node) (f : Option Nat → Container → Container) (q : Place) :
    (n.mapContainers f q.node).containerAt? q =
      (n.slotAt? q).map fun s => f s.scope s.container := by
  obtain ⟨content, parent, extent⟩ := n
  cases content with
  | root _ | text _ | mustache _ => cases q <;> rfl
  | element e =>
    have hattribute : ∀ (x : Attribute → Option Container) (i : Nat),
        ((Node.mapContainers f q.node ⟨.element e, parent, extent⟩).attribute? i).bind x =
          (e.attributes[i]?).bind fun a => x (a.mapContainers f q.node parent) := by
      intro x i
      exact (congrArg (Option.bind · x) Array.getElem?_map).trans (Option.bind_map ..)
    cases q with
    | mustache id => rfl
    | argument id i =>
      refine (hattribute _ i).trans (Eq.trans ?_ (Option.map_bind ..).symm)
      exact congrArg _ (funext fun a => a.argument?_mapContainers f)
    | value id i =>
      refine (hattribute _ i).trans (Eq.trans ?_ (Option.map_bind ..).symm)
      exact congrArg _ (funext fun a => a.value?_mapContainers f)

end

namespace Tree

variable {t : Tree} {p q : Place}

/-- The container at a place, with the node that its references are looked up from. -/
def slotAt? (t : Tree) (q : Place) : Option Slot := (t.node? q.node).bind (·.slotAt? q)

/-- At each place there is one container at most. -/
theorem filter_slots (t : Tree) (q : Place) :
    t.slots.filter (·.place = q) = (t.slotAt? q).toList := by
  have hother : ∀ (n : Node) (id : Nat), id ≠ q.node → (n.slots id).filter (·.place = q) = [] := by
    intro n id hid
    refine List.filter_eq_nil_iff.2 fun s hs heq => hid ?_
    rw [← of_decide_eq_true heq, Node.place_slots hs]
  rw [slots, filter_zipIdx_flatten hother, Array.getElem?_toList, slotAt?, node?]
  cases t.nodes[q.node]? with
  | none => rfl
  | some n => exact n.filter_slots q

theorem slotAt?_container (t : Tree) (q : Place) :
    (t.slotAt? q).map Slot.container = t.containerAt? q := by
  rw [containerAt?_eq, slotAt?]
  cases t.node? q.node with
  | none => rfl
  | some n => exact n.slotAt?_container q

theorem containerAt?_of_mem {s : Slot} (h : s ∈ t.slots) :
    t.containerAt? s.place = some s.container := by
  have hmem : s ∈ t.slots.filter (·.place = s.place) :=
    List.mem_filter.2 ⟨h, decide_eq_true rfl⟩
  rw [filter_slots, Option.mem_toList] at hmem
  rw [← slotAt?_container, hmem, Option.map_some]

theorem containerAt?_bindAll (t : Tree) (q : Place) :
    t.bindAll.containerAt? q = (t.slotAt? q).map fun s => t.bind s.scope s.container := by
  rw [containerAt?_eq, node?_bindAll, slotAt?]
  cases t.node? q.node with
  | none => rfl
  | some n => exact n.containerAt?_mapContainers t.bind q

/-! ## Writing back -/

/-- The reference of an index in the container at a place. -/
def referenceAt? (t : Tree) (x : Resolved) : Option Reference :=
  (t.containerAt? x.place).bind fun c => c.references[x.index]?

/-- Puts a variable into a reference. -/
def putTarget (t : Tree) (x : Resolved) : Tree :=
  t.modifyContainer x.place fun c => c.setTarget x.index x.target

/-- The identifiers that are put down for references. -/
def usesOf (t : Tree) (xs : List Resolved) : List (VariableRef × Script.Ident) :=
  xs.filterMap fun x => (t.referenceAt? x).map fun r => (x.target, r.ident)

theorem addUse_putTarget (t : Tree) (v : VariableRef) (id : Script.Ident) (x : Resolved) :
    (t.addUse v id).putTarget x = (t.putTarget x).addUse v id := by
  refine t.modify_comm (fun n => ?_) v.element x.place.node
  obtain ⟨content, parent, extent⟩ := n
  cases content <;> cases x.place <;> rfl

theorem foldl_putTarget_addUse (t : Tree) (v : VariableRef) (id : Script.Ident) (xs : List Resolved) :
    xs.foldl putTarget (t.addUse v id) = (xs.foldl putTarget t).addUse v id := by
  induction xs generalizing t with
  | nil => rfl
  | cons x xs ih => rw [List.foldl_cons, List.foldl_cons, addUse_putTarget, ih]

/-- The identifier of a reference is not written to. -/
theorem ident_putTarget (t : Tree) (x y : Resolved) :
    ((t.putTarget x).referenceAt? y).map Reference.ident = (t.referenceAt? y).map Reference.ident := by
  rw [referenceAt?, putTarget, containerAt?_modifyContainer, referenceAt?]
  split
  · cases t.containerAt? y.place with
    | none => rfl
    | some c =>
      simp only [Option.map_some, Option.bind_some, Container.setTarget, Array.getElem?_modify]
      split
      · cases c.references[y.index]? <;> rfl
      · rfl
  · rfl

theorem ident_addUse (t : Tree) (v : VariableRef) (id : Script.Ident) (y : Resolved) :
    (t.addUse v id).referenceAt? y = t.referenceAt? y := by
  rw [referenceAt?, containerAt?_addUse, referenceAt?]

theorem usesOf_congr {t t' : Tree} (h : ∀ y, (t'.referenceAt? y).map Reference.ident =
    (t.referenceAt? y).map Reference.ident) (xs : List Resolved) : t'.usesOf xs = t.usesOf xs := by
  unfold usesOf
  congr 1
  funext y
  have hy := congrArg (Option.map fun id => (y.target, id)) (h y)
  rwa [Option.map_map, Option.map_map] at hy

/-- What is written back one by one may be put into the references first, and then be put down with the
variables. -/
theorem foldl_writeBack {t : Tree} {xs : List Resolved}
    (h : ∀ x ∈ xs, (t.referenceAt? x).isSome = true) :
    xs.foldl writeBack t = (xs.foldl putTarget t).addUses (t.usesOf xs) := by
  induction xs generalizing t with
  | nil => rfl
  | cons x xs ih =>
    obtain ⟨r, hr⟩ := Option.isSome_iff_exists.1 (h x (List.mem_cons_self ..))
    have hwrite : t.writeBack x = (t.putTarget x).addUse x.target r.ident := by
      have hr' : ((t.containerAt? x.place).bind fun c => c.references[x.index]?) = some r := hr
      rw [writeBack, hr']
      rfl
    have hident : ∀ y, (((t.putTarget x).addUse x.target r.ident).referenceAt? y).map Reference.ident =
        (t.referenceAt? y).map Reference.ident := fun y => by
      rw [ident_addUse, ident_putTarget]
    have huses : t.usesOf (x :: xs) = (x.target, r.ident) :: t.usesOf xs :=
      List.filterMap_cons_some (by rw [hr, Option.map_some])
    rw [List.foldl_cons, List.foldl_cons, hwrite, ih, foldl_putTarget_addUse, usesOf_congr hident, huses]
    · rfl
    · intro y hy
      have hsome := congrArg Option.isSome (hident y)
      rw [Option.isSome_map, Option.isSome_map] at hsome
      rw [hsome]
      exact h y (List.mem_cons_of_mem _ hy)

/-! ### One container -/

/-- Putting the variables that are found into the references of a list binds them. -/
theorem foldl_modify_zipIdx (g : Reference → Option VariableRef) (front rs : List Reference) :
    ((rs.zipIdx front.length).filterMap fun (r, i) => (g r).map fun v => (i, v)).foldl
      (fun rs (x : Nat × VariableRef) => rs.modify x.1 fun r => { r with target := some x.2 })
      (front ++ rs) = front ++ rs.map fun r => { r with target := (g r).or r.target } := by
  induction rs generalizing front with
  | nil => rfl
  | cons r rs ih =>
    have hlen : ∀ r' : Reference, (front ++ [r']).length = front.length + 1 := fun r' => by simp
    have happ : ∀ r' : Reference, front ++ r' :: rs = (front ++ [r']) ++ rs := fun r' => by simp
    cases hg : g r with
    | none =>
      rw [List.zipIdx_cons, List.filterMap_cons_none (by simp [hg]), happ, ← hlen r, ih]
      simp [hg]
    | some v =>
      rw [List.zipIdx_cons, List.filterMap_cons_some (b := (front.length, v)) (by simp [hg]),
        List.foldl_cons, modify_append_length]
      have hih := ih (front ++ [{ r with target := some v }])
      rw [hlen] at hih
      simpa [hg] using hih

theorem foldl_setTarget (c : Container) (xs : List Resolved) :
    (xs.foldl (fun c x => c.setTarget x.index x.target) c) = { c with references :=
      ((xs.map fun x => (x.index, x.target)).foldl (fun rs (x : Nat × VariableRef) =>
        rs.modify x.1 fun r => { r with target := some x.2 }) c.references.toList).toArray } := by
  induction xs generalizing c with
  | nil => rfl
  | cons x xs ih =>
    rw [List.foldl_cons, ih, List.map_cons, List.foldl_cons]
    simp only [Container.setTarget, Array.toList_modify]

/-- What is found for a container binds its references. -/
theorem foldl_findVariables (t : Tree) (s : Slot) :
    (t.findVariables s).foldl (fun c x => c.setTarget x.index x.target) s.container =
      t.bind s.scope s.container := by
  have hfound : (t.findVariables s).map (fun x => (x.index, x.target)) =
      s.container.references.toList.zipIdx.filterMap fun (r, i) =>
        (t.lookup? s.scope r.name).map fun v => (i, v) := by
    rw [findVariables, List.map_filterMap]
    congr 1
    funext x
    exact Option.map_map ..
  have hbind := foldl_modify_zipIdx (fun r => t.lookup? s.scope r.name) []
    s.container.references.toList
  rw [foldl_setTarget, hfound]
  exact congrArg (fun rs : List Reference => { s.container with references := rs.toArray })
    (hbind.trans (Array.toList_map ..).symm)

theorem filterMap_findVariables {t : Tree} {s : Slot} (h : s ∈ t.slots) :
    t.usesOf (t.findVariables s) = t.usesIn s := by
  have hcontainer := containerAt?_of_mem h
  have hzip : s.container.references.toList.zipIdx.map Prod.fst = s.container.references.toList :=
    List.zipIdx_map_fst ..
  unfold usesOf findVariables usesIn
  rw [List.filterMap_filterMap]
  conv => rhs; rw [← hzip, List.filterMap_map]
  refine List.filterMap_congr fun x hx => ?_
  obtain ⟨r, i⟩ := x
  have hr : s.container.references[i]? = some r := by
    rw [← Array.getElem?_toList]
    exact List.mem_zipIdx_iff_getElem?.1 hx
  cases hv : t.lookup? s.scope r.name with
  | none => simp [hv]
  | some v => simp [hv, referenceAt?, hcontainer, hr]

/-! ### All containers -/

theorem containerAt?_foldl_putTarget (t : Tree) (xs : List Resolved) (q : Place) :
    (xs.foldl putTarget t).containerAt? q = (t.containerAt? q).map fun c =>
      (xs.filter (·.place = q)).foldl (fun c x => c.setTarget x.index x.target) c := by
  induction xs generalizing t with
  | nil => exact (Option.map_id' ..).symm
  | cons x xs ih =>
    rw [List.foldl_cons, ih, putTarget, containerAt?_modifyContainer]
    by_cases hq : x.place = q
    · rw [if_pos hq, List.filter_cons_of_pos (by simpa using hq), Option.map_map]
      rfl
    · rw [if_neg hq, List.filter_cons_of_neg (by simpa using hq)]

theorem bare_foldl_putTarget (t : Tree) (xs : List Resolved) (id : Nat) :
    ((xs.foldl putTarget t).node? id).map Node.bare = (t.node? id).map Node.bare := by
  induction xs generalizing t with
  | nil => rfl
  | cons x xs ih => exact (ih _).trans (map_node?_modify _ fun n _ => n.bare_mapContainer _ _)

theorem filter_resolved (t : Tree) (q : Place) :
    t.resolved.filter (·.place = q) = (t.slotAt? q).elim [] t.findVariables := by
  have hplace : ∀ s : Slot, ∀ x ∈ t.findVariables s, x.place = s.place := by
    intro s x hx
    obtain ⟨⟨r, i⟩, -, hr⟩ := List.mem_filterMap.1 hx
    obtain ⟨v, -, rfl⟩ := Option.map_eq_some_iff.1 hr
    rfl
  have hfilter : ∀ ss : List Slot, ((ss.map t.findVariables).flatten).filter (·.place = q) =
      ((ss.filter (·.place = q)).map t.findVariables).flatten := by
    intro ss
    induction ss with
    | nil => rfl
    | cons s ss ih =>
      rw [List.map_cons, List.flatten_cons, List.filter_append, ih]
      by_cases hq : s.place = q
      · rw [List.filter_cons_of_pos (by simpa using hq), List.map_cons, List.flatten_cons,
          List.filter_eq_self.2 fun x hx => decide_eq_true ((hplace s x hx).trans hq)]
      · rw [List.filter_cons_of_neg (by simpa using hq), List.filter_eq_nil_iff.2 fun x hx heq =>
          hq ((hplace s x hx).symm.trans (of_decide_eq_true heq)), List.nil_append]
  rw [resolved, hfilter, filter_slots]
  cases t.slotAt? q with
  | none => rfl
  | some s => exact List.append_nil _

/-- What is found for a tree binds its references. -/
theorem foldl_putTarget_resolved (t : Tree) : t.resolved.foldl putTarget t = t.bindAll := by
  refine ext_containers (fun id => ?_) fun q => ?_
  · rw [bare_foldl_putTarget, node?_bindAll, Option.map_map]
    exact congrArg (fun f => (t.node? id).map f) (funext fun n => (n.bare_mapContainers _ _).symm)
  · rw [containerAt?_foldl_putTarget, filter_resolved, containerAt?_bindAll, ← slotAt?_container]
    cases t.slotAt? q with
    | none => rfl
    | some s => exact congrArg some (t.foldl_findVariables s)

theorem usesOf_resolved (t : Tree) : t.usesOf t.resolved = t.uses := by
  rw [usesOf, resolved, List.filterMap_flatten, List.map_map, uses]
  exact congrArg List.flatten (List.map_congr_left fun s hs => filterMap_findVariables hs)

theorem referenceAt?_isSome {t : Tree} {x : Resolved} (h : x ∈ t.resolved) :
    (t.referenceAt? x).isSome = true := by
  obtain ⟨xs, hxs, hx⟩ := List.mem_flatten.1 h
  obtain ⟨s, hs, rfl⟩ := List.mem_map.1 hxs
  obtain ⟨⟨r, i⟩, hr, hv⟩ := List.mem_filterMap.1 hx
  obtain ⟨v, -, rfl⟩ := Option.map_eq_some_iff.1 hv
  have hget : s.container.references[i]? = some r := by
    rw [← Array.getElem?_toList]
    exact List.mem_zipIdx_iff_getElem?.1 hr
  rw [referenceAt?, containerAt?_of_mem hs, Option.bind_some, hget]
  rfl

/-- Resolving a tree binds all its references, and puts their identifiers down with the variables they
mean. -/
theorem resolve_eq (t : Tree) : t.resolve = t.bindAll.addUses t.uses := by
  rw [resolve, foldl_writeBack fun x hx => referenceAt?_isSome hx, foldl_putTarget_resolved,
    usesOf_resolved]

/-- Resolving neither adds nor removes a node. -/
theorem size_resolve (t : Tree) : t.resolve.size = t.size := by
  rw [resolve_eq, size_addUses, size_bindAll]

end Tree

/-! ## Bound references -/

theorem Attribute.containers_mapContainers (a : Attribute) (f : Option Nat → Container → Container)
    (id : Nat) (parent : Option Nat) (i : Nat) : (a.mapContainers f id parent).containers =
      (a.slots id parent i).map fun s => f s.scope s.container := by
  rcases a with a | ⟨⟨name, argument, modifiers, keyExtent⟩, value, extent⟩
  · rfl
  · rcases argument with _ | (_ | _) <;> cases value <;> rfl

theorem Node.containers_mapContainers (n : Node) (f : Option Nat → Container → Container) (id : Nat) :
    (n.mapContainers f id).containers = (n.slots id).map fun s => f s.scope s.container := by
  obtain ⟨content, parent, extent⟩ := n
  cases content with
  | element e =>
    have hzip : e.attributes.toList.zipIdx.map Prod.fst = e.attributes.toList :=
      List.zipIdx_map_fst ..
    simp only [mapContainers, containers, slots, Array.toList_map, List.map_map, List.map_flatten]
    conv => lhs; rw [← hzip, List.map_map]
    exact congrArg List.flatten (List.map_congr_left fun x _ => x.1.containers_mapContainers f id parent _)
  | _ => rfl

theorem Node.mapContainers_id (n : Node) (id : Nat) : n.mapContainers (fun _ c => c) id = n := by
  obtain ⟨content, parent, extent⟩ := n
  cases content with
  | element e =>
    have hsame : (fun a : Attribute => a.mapContainers (fun _ c => c) id parent) = fun a => a := by
      funext a
      rcases a with a | ⟨⟨name, argument, modifiers, keyExtent⟩, value, extent⟩
      · rfl
      · rcases argument with _ | (_ | _) <;> cases value <;> rfl
    simp only [mapContainers, hsame, Array.map_id']
  | _ => rfl

/-- No reference of the node means a variable yet. -/
def Node.Untied (n : Node) : Prop := ∀ c ∈ n.containers, ∀ r ∈ c.references, r.target = none

namespace Tree

/-- No reference of the tree means a variable yet. -/
def Untied (t : Tree) : Prop := ∀ id n, t.node? id = some n → n.Untied

/-- The containers of a tree are those of its nodes. -/
theorem exists_container {t : Tree} {s : Slot} (h : s ∈ t.slots) :
    ∃ id n, t.node? id = some n ∧ s.container ∈ n.containers := by
  obtain ⟨ss, hss, hs⟩ := List.mem_flatten.1 h
  obtain ⟨⟨n, id⟩, hn, rfl⟩ := List.mem_map.1 hss
  refine ⟨id, n, ?_, ?_⟩
  · rw [node?, ← Array.getElem?_toList]
    exact List.mem_zipIdx_iff_getElem?.1 hn
  · rw [← n.mapContainers_id id, Node.containers_mapContainers]
    exact List.mem_map_of_mem hs

/-- The references that mean a variable are those that are bound, if none was before. -/
theorem uses_eq {t : Tree} (h : t.Untied) : t.uses = t.bindAll.links := by
  have hlinks : t.bindAll.links =
      (t.slots.map fun s => (t.bind s.scope s.container).links).flatten := by
    rw [links, bindAll, Array.toList_mapIdx, List.mapIdx_eq_zipIdx_map, List.map_map, slots,
      List.map_flatten, List.flatten_flatten, List.map_map, List.map_map]
    refine congrArg List.flatten (List.map_congr_left fun x _ => ?_)
    rw [Function.comp_apply, Node.containers_mapContainers, List.map_map]
    rfl
  have huntied : ∀ s ∈ t.slots, ∀ r ∈ s.container.references, r.target = none := fun s hs => by
    obtain ⟨id, n, hn, hc⟩ := exists_container hs
    exact h id n hn s.container hc
  rw [hlinks, uses]
  refine congrArg List.flatten (List.map_congr_left fun s hs => ?_)
  rw [usesIn, Container.links, bind, Array.toList_map, List.filterMap_map]
  refine List.filterMap_congr fun r hr => ?_
  simp [huntied s hs r (Array.mem_toList_iff.1 hr), Reference.ident]

end Tree

end TemplateSyntax
