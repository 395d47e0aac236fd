import Mathlib.Data.List.Sort
import TemplateSyntax.Proofs.ReadTree
import TemplateSyntax.Tree.Walk

/-! # Walks over a template

The nodes of a template are a tree in document order, and the walk goes over it by parents before
children: a `Tour` is the walk by recursion, from which it is read off when a node is entered and left,
and how deep.  The walk does its tasks one by one; those for some nodes come to nothing but the tour
over them. -/

namespace TemplateSyntax

namespace WalkEvent

/-- The node that an event enters. -/
def entered? : WalkEvent → Option Nat
  | enter id => some id
  | _ => none

/-- The node that an event leaves. -/
def left? : WalkEvent → Option Nat
  | leave id => some id
  | _ => none

/-- How many nodes are entered and not left behind some events, of which `depth` were entered before
them. -/
def depthBehind (depth : Nat) (events : List WalkEvent) : Nat := events.foldl depthAfter depth

theorem depthBehind_append (depth : Nat) (xs ys : List WalkEvent) :
    depthBehind depth (xs ++ ys) = depthBehind (depthBehind depth xs) ys := List.foldl_append ..

/-- What a node itself reports enters and leaves none. -/
theorem mem_ofNode {id : Nat} {n : Node} {x : WalkEvent} (h : x ∈ ofNode id n) :
    x.entered? = none ∧ x.left? = none ∧ ∀ depth, x.depthAfter depth = depth := by
  unfold ofNode at h
  split at h
  · obtain ⟨xs, hxs, hx⟩ := List.mem_flatten.1 h
    obtain ⟨a, -, rfl⟩ := List.mem_map.1 hxs
    rcases List.mem_cons.1 hx with rfl | hx
    · exact ⟨rfl, rfl, fun _ => rfl⟩
    · split at hx
      · simp at hx
      · obtain ⟨c, rfl⟩ : ∃ c, x = container c := by
          rcases List.mem_append.1 hx with hx | hx
          · split at hx
            · exact ⟨_, List.mem_singleton.1 hx⟩
            · simp at hx
          · simp only [Option.mem_toList, Option.map_eq_some_iff] at hx
            obtain ⟨c, -, rfl⟩ := hx
            exact ⟨c, rfl⟩
        exact ⟨rfl, rfl, fun _ => rfl⟩
  · obtain rfl := List.mem_singleton.1 h
    exact ⟨rfl, rfl, fun _ => rfl⟩
  · simp at h

theorem entered_ofNode (id : Nat) (n : Node) : (ofNode id n).filterMap entered? = [] :=
  List.filterMap_eq_nil_iff.2 fun _ hx => (mem_ofNode hx).1

theorem left_ofNode (id : Nat) (n : Node) : (ofNode id n).filterMap left? = [] :=
  List.filterMap_eq_nil_iff.2 fun _ hx => (mem_ofNode hx).2.1

theorem depthBehind_ofNode (depth id : Nat) (n : Node) :
    depthBehind depth (ofNode id n) = depth := by
  have hall := fun x (hx : x ∈ ofNode id n) => (mem_ofNode hx).2.2
  generalize ofNode id n = events at hall
  induction events with
  | nil => rfl
  | cons x xs ih =>
    obtain ⟨hx, hxs⟩ := List.forall_mem_cons.1 hall
    rw [depthBehind, List.foldl_cons, hx]
    exact ih hxs

theorem mem_entered {id : Nat} {events : List WalkEvent} :
    id ∈ events.filterMap entered? ↔ enter id ∈ events := by
  rw [List.mem_filterMap]
  constructor
  · rintro ⟨x, hx, heq⟩
    cases x with
    | enter j => exact Option.some.inj heq ▸ hx
    | leave | attributeOf | container => exact absurd heq nofun
  · exact fun h => ⟨_, h, rfl⟩

theorem mem_left {id : Nat} {events : List WalkEvent} :
    id ∈ events.filterMap left? ↔ leave id ∈ events := by
  rw [List.mem_filterMap]
  constructor
  · rintro ⟨x, hx, heq⟩
    cases x with
    | leave j => exact Option.some.inj heq ▸ hx
    | enter | attributeOf | container => exact absurd heq nofun
  · exact fun h => ⟨_, h, rfl⟩

/-- What stands in an element itself: each attribute, and behind it its containers. -/
theorem ofNode_element {id : Nat} {n : Node} {e : Element} (h : n.content = .element e) :
    ofNode id n = e.attributes.toList.flatMap fun a =>
      attributeOf id a :: a.containers.map container := by
  have hattribute : ∀ a : Attribute,
      ofAttribute id a = attributeOf id a :: a.containers.map container := by
    intro a
    cases a with
    | plain a => rfl
    | directive d =>
      obtain ⟨⟨name, argument, modifiers, kextent⟩, value, extent⟩ := d
      rcases argument with _ | (_ | _) <;> rcases value with _ | _ <;> rfl
  rw [ofNode, h, List.flatMap_def]
  exact congrArg List.flatten (List.map_congr_left fun a _ => hattribute a)

end WalkEvent

namespace Tree

open WalkEvent (entered? left? depthBehind ofNode)

variable {t : Tree} {id a c d p : Nat} {n : Node} {ids : List Nat} {events : List WalkEvent}

/-! ## Tours -/

/-- The walk over some nodes and what is inside them, one after the other. -/
inductive Tour (t : Tree) : List Nat → List WalkEvent → Prop
  | nil : Tour t [] []
  | cons {id : Nat} {n : Node} {ids : List Nat} {inside rest : List WalkEvent}
      (hn : t.node? id = some n) (hi : Tour t n.children.toList inside) (hr : Tour t ids rest) :
      Tour t (id :: ids) (.enter id :: (ofNode id n ++ inside) ++ .leave id :: rest)

/-- There is a tour over all nodes that are there. -/
theorem Linked.exists_tour (h : t.Linked) (hids : ∀ id ∈ ids, id < t.size) :
    ∃ events, t.Tour ids events := by
  have hall : ∀ k : Nat, ∀ ids : List Nat, (∀ id ∈ ids, id < t.size ∧ t.size ≤ id + k) →
      ∃ events, t.Tour ids events := by
    intro k
    induction k with
    | zero =>
      intro ids hids
      cases ids with
      | nil => exact ⟨[], .nil⟩
      | cons id ids =>
        obtain ⟨h1, h2⟩ := hids id (List.mem_cons_self ..)
        omega
    | succ k ih =>
      intro ids hids
      induction ids with
      | nil => exact ⟨[], .nil⟩
      | cons id ids ihids =>
        obtain ⟨⟨hlt, hle⟩, hrest⟩ := List.forall_mem_cons.1 hids
        obtain ⟨n, hn⟩ := exists_node hlt
        -- the children of a node come behind it
        obtain ⟨inside, hinside⟩ := ih n.children.toList fun c hc => by
          have hmem : c ∈ t.children id := by
            rw [children_eq hn]
            simpa using hc
          obtain ⟨-, h1, h2⟩ := h.child id c hmem
          omega
        obtain ⟨rest, hr⟩ := ihids hrest
        exact ⟨_, .cons hn hinside hr⟩
  exact hall t.size ids fun id hid => ⟨hids id hid, by omega⟩

/-- Each node that a tour enters is left again. -/
theorem Tour.depth (h : t.Tour ids events) (depth : Nat) : depthBehind depth events = depth := by
  induction h generalizing depth with
  | nil => rfl
  | @cons id n ids inside rest _ _ _ ihi ihr =>
    rw [List.cons_append, List.append_assoc]
    show depthBehind (depth + 1) (ofNode id n ++ (inside ++ .leave id :: rest)) = depth
    rw [WalkEvent.depthBehind_append, WalkEvent.depthBehind_ofNode, WalkEvent.depthBehind_append, ihi]
    exact ihr depth

theorem entered_cons (id : Nat) (n : Node) (inside rest : List WalkEvent) :
    (.enter id :: (ofNode id n ++ inside) ++ .leave id :: rest).filterMap entered? =
      id :: (inside.filterMap entered? ++ rest.filterMap entered?) := by
  rw [List.cons_append, List.filterMap_cons, List.filterMap_append, List.filterMap_append,
    WalkEvent.entered_ofNode, List.filterMap_cons]
  rfl

theorem left_cons (id : Nat) (n : Node) (inside rest : List WalkEvent) :
    (.enter id :: (ofNode id n ++ inside) ++ .leave id :: rest).filterMap left? =
      inside.filterMap left? ++ id :: rest.filterMap left? := by
  rw [List.cons_append, List.filterMap_cons, List.filterMap_append, List.filterMap_append,
    WalkEvent.left_ofNode, List.filterMap_cons]
  rfl

theorem Tour.left_perm (h : t.Tour ids events) :
    (events.filterMap left?).Perm (events.filterMap entered?) := by
  induction h with
  | nil => exact .nil
  | @cons id n ids inside rest _ _ _ ihi ihr =>
    rw [left_cons, entered_cons]
    exact List.perm_middle.trans ((ihi.append ihr).cons id)

/-- What is below a node is one of its children, or is below one. -/
theorem Linked.above_iff_child (h : t.Linked) :
    t.Above a d ↔ ∃ c ∈ t.children a, d = c ∨ t.Above c d := by
  constructor
  · intro ha
    induction ha with
    | @parent d hp =>
      obtain ⟨hne, -, hlt⟩ := h.parent_lt hp
      obtain ⟨q, hq, hmem⟩ := h.parent d (Nat.pos_of_ne_zero hne) hlt
      obtain rfl := Option.some.inj (hp.symm.trans hq)
      exact ⟨d, hmem, .inl rfl⟩
    | further hp _ ih =>
      obtain ⟨c, hc, hor⟩ := ih
      refine ⟨c, hc, .inr ?_⟩
      rcases hor with rfl | habove
      · exact .parent hp
      · exact .further hp habove
  · rintro ⟨c, hc, hor⟩
    have hparent := (h.child a c hc).1
    rcases hor with rfl | habove
    · exact .parent hparent
    · exact Above.trans (.parent hparent) habove

/-- A tour enters its nodes and what is below them. -/
theorem Tour.mem_entered (h : t.Tour ids events) (hl : t.Linked) :
    d ∈ events.filterMap entered? ↔ ∃ id ∈ ids, d = id ∨ t.Above id d := by
  induction h with
  | nil => simp
  | @cons id n ids inside rest hn _ _ ihi ihr =>
    have hbelow : t.Above id d ↔ ∃ c ∈ n.children.toList, d = c ∨ t.Above c d := by
      rw [hl.above_iff_child, children_eq hn]
      simp only [Array.mem_toList_iff]
    rw [entered_cons, List.mem_cons, List.mem_append, ihi, ihr, ← hbelow, ← or_assoc]
    simp only [List.mem_cons, exists_eq_or_imp]

/-- The nodes are siblings, each behind the one in front of it. -/
def Siblings (t : Tree) (ids : List Nat) : Prop :=
  ids.Pairwise fun a b => a < b ∧ ∃ p, t.parent? a = some p ∧ t.parent? b = some p

theorem Ascending.siblings (h : t.Ascending) (hl : t.Linked) (hn : t.node? id = some n) :
    t.Siblings n.children.toList := by
  have hsorted := (h id).1
  have hparent := fun c hc => (hl.child id c hc).1
  rw [children_eq hn] at hsorted hparent
  refine hsorted.imp_of_mem fun {a b} ha hb hlt => ⟨hlt, id, hparent a ?_, hparent b ?_⟩
  · simpa using ha
  · simpa using hb

/-- A tour over siblings enters its nodes in document order. -/
theorem Tour.entered_sorted (h : t.Tour ids events) (hl : t.Linked) (hp : t.Preorder)
    (ha : t.Ascending) (hs : t.Siblings ids) : (events.filterMap entered?).Pairwise (· < ·) := by
  induction h with
  | nil => exact .nil
  | @cons id n ids inside rest hn hi hr ihi ihr =>
    obtain ⟨hfirst, hrest⟩ := List.pairwise_cons.1 hs
    have hchild : ∀ x ∈ inside.filterMap entered?, t.Above id x := by
      intro x hx
      rw [hi.mem_entered hl] at hx
      rw [hl.above_iff_child, children_eq hn]
      simpa only [Array.mem_toList_iff] using hx
    -- what comes behind this node and what is below it
    have hbehind : ∀ x, (x = id ∨ t.Above id x) → ∀ y ∈ rest.filterMap entered?, x < y := by
      intro x hx y hy
      obtain ⟨s, hs, hor⟩ := (hr.mem_entered hl).1 hy
      obtain ⟨hlt, p, hid, hsp⟩ := hfirst s hs
      have hxs := hp.below_lt_sibling hid hsp hlt hx
      rcases hor with rfl | habove
      · exact hxs
      · exact Nat.lt_trans hxs (habove.lt hp)
    rw [entered_cons, List.pairwise_cons, List.pairwise_append]
    refine ⟨fun x hx => ?_, ihi (ha.siblings hl hn), ihr hrest, fun x hx y hy => ?_⟩
    · rcases List.mem_append.1 hx with hx | hx
      · exact (hchild x hx).lt hp
      · exact hbehind id (.inl rfl) x hx
    · exact hbehind x (.inr (hchild x hx)) y hy

/-- The part of a tour that goes over one of its nodes. -/
theorem Tour.split (h : t.Tour ids events) (hid : id ∈ ids) :
    ∃ n front inside back ids₁ ids₂, t.node? id = some n ∧ t.Tour ids₁ front ∧
      t.Tour n.children.toList inside ∧ t.Tour ids₂ back ∧
        events = front ++ .enter id :: (ofNode id n ++ inside) ++ .leave id :: back := by
  induction h with
  | nil => simp at hid
  | @cons j n ids inside rest hn hi hr _ ihr =>
    rcases List.mem_cons.1 hid with rfl | hid
    · exact ⟨n, [], inside, rest, [], ids, hn, .nil, hi, hr, rfl⟩
    · obtain ⟨n', front, inside', back, ids₁, ids₂, hn', hfront, hinside, hback, rfl⟩ := ihr hid
      refine ⟨n', _, inside', back, j :: ids₁, ids₂, hn', .cons hn hi hfront, hinside, hback, ?_⟩
      simp only [List.append_assoc, List.cons_append]

theorem Linked.ancestors_eq (h : t.Linked) (hp : t.parent? id = some p) :
    t.ancestors id = p :: t.ancestors p := by
  have hchain := h.chainFrom_scopeChain (some id)
  cases hchain with
  | within hchain =>
    rw [hp] at hchain
    exact hchain.unique (h.chainFrom_scopeChain (some p))

theorem Linked.ancestors_root (h : t.Linked) : t.ancestors Tree.root = [] := by
  have hchain := h.chainFrom_scopeChain (some Tree.root)
  cases hchain with
  | within hchain =>
    rw [h.root] at hchain
    exact hchain.unique .outside

/-- The tour over the whole tree goes over each node as deep as it has ancestors. -/
theorem Tour.exists_part (h : t.Tour [root] events) (hl : t.Linked) (hid : id < t.size) :
    ∃ n front inside back, t.node? id = some n ∧ t.Tour n.children.toList inside ∧
      events = front ++ .enter id :: (ofNode id n ++ inside) ++ .leave id :: back ∧
        depthBehind 0 front = (t.ancestors id).length := by
  induction id using Nat.strongRecOn with
  | _ id ih =>
    by_cases hroot : id = root
    · subst hroot
      obtain ⟨n, front, inside, back, ids₁, ids₂, hn, hfront, hinside, -, heq⟩ :=
        h.split (List.mem_singleton_self root)
      refine ⟨n, front, inside, back, hn, hinside, heq, ?_⟩
      rw [hfront.depth, hl.ancestors_root, List.length_nil]
    · obtain ⟨p, hp, hmem⟩ := hl.parent id (Nat.pos_of_ne_zero hroot) hid
      obtain ⟨-, hlt, -⟩ := hl.child p id hmem
      obtain ⟨np, front, inside, back, hnp, hinside, rfl, hdepth⟩ := ih p hlt (Nat.lt_trans hlt hid)
      rw [children_eq hnp] at hmem
      obtain ⟨n, front', inside', back', ids₁, ids₂, hn, hfront', hinside', -, rfl⟩ :=
        hinside.split (Array.mem_toList_iff.2 hmem)
      refine ⟨n, front ++ .enter p :: (ofNode p np ++ front'), inside', back' ++ .leave p :: back, hn,
        hinside', ?_, ?_⟩
      · simp only [List.append_assoc, List.cons_append]
      · rw [hl.ancestors_eq hp, List.length_cons, WalkEvent.depthBehind_append, hdepth]
        show depthBehind ((t.ancestors p).length + 1) (ofNode p np ++ front') = _
        rw [WalkEvent.depthBehind_append, WalkEvent.depthBehind_ofNode, hfront'.depth]

/-! ## The walk -/

/-- A walk that does so many tasks, and then some more. -/
theorem run_add (t : Tree) (k m : Nat) (w : Walk) :
    Walk.run t (k + m) w = Walk.run t m (Walk.run t k w) := by
  induction k generalizing w with
  | zero => rw [Nat.zero_add]; rfl
  | succ k ih =>
    rw [Nat.succ_add]
    exact ih (w.step t)

/-- The tasks to enter some nodes come to the tour over them: two for each node that is entered. -/
theorem Tour.run (h : t.Tour ids events) (rest : List WalkTask) (met : Array WalkEvent) :
    Walk.run t (2 * (events.filterMap entered?).length) ⟨ids.map .enter ++ rest, met⟩ =
      ⟨rest, met.appendList events⟩ := by
  induction h generalizing rest met with
  | nil => simp [Walk.run]
  | @cons id n ids inside behind hn _ _ ihi ihr =>
    have hcount : 2 * ((.enter id :: (ofNode id n ++ inside) ++
        .leave id :: behind).filterMap entered?).length =
          1 + 2 * (inside.filterMap entered?).length + 1 +
            2 * (behind.filterMap entered?).length := by
      rw [entered_cons, List.length_cons, List.length_append]
      omega
    have henter : Walk.run t 1 ⟨(id :: ids).map .enter ++ rest, met⟩ =
        ⟨n.children.toList.map .enter ++ .leave id :: (ids.map .enter ++ rest),
          (met.push (.enter id)).appendList (ofNode id n)⟩ := by
      simp only [Walk.run, Walk.step, List.map_cons, List.cons_append, hn]
    have hleave : ∀ met', Walk.run t 1 ⟨.leave id :: (ids.map .enter ++ rest), met'⟩ =
        ⟨ids.map .enter ++ rest, met'.push (.leave id)⟩ := fun _ => rfl
    rw [hcount, run_add, run_add, run_add, henter, ihi, hleave, ihr]
    congr 1
    apply Array.toList_inj.1
    simp

variable (hl : t.Linked) (hp : t.Preorder) (ha : t.Ascending)

include hl hp ha in
/-- The walk is a tour, enters the nodes in the order of their numbers, and has nothing left to do. -/
theorem walk_spec : t.Tour [root] t.walk ∧ t.walk.filterMap entered? = List.range t.size ∧
    t.fullWalk.tasks = [] := by
  have hroot : ∀ id ∈ [root], id < t.size := fun id hid => List.mem_singleton.1 hid ▸ hl.size
  obtain ⟨events, h⟩ := hl.exists_tour hroot
  have hentered : events.filterMap entered? = List.range t.size := by
    refine List.Pairwise.eq_of_mem_iff (h.entered_sorted hl hp ha (List.pairwise_singleton _ _))
      List.pairwise_lt_range fun d => ?_
    rw [h.mem_entered hl, List.mem_range]
    constructor
    · rintro ⟨id, hid, hor⟩
      obtain rfl := List.mem_singleton.1 hid
      rcases hor with rfl | habove
      · exact hl.size
      · exact habove.below_size
    · intro hd
      refine ⟨root, List.mem_singleton_self _, ?_⟩
      induction d using Nat.strongRecOn with
      | _ d ih =>
        by_cases hroot : d = root
        · exact .inl hroot
        · obtain ⟨p, hparent, hmem⟩ := hl.parent d (Nat.pos_of_ne_zero hroot) hd
          have hlt := (hl.child p d hmem).2.1
          rcases ih p hlt (Nat.lt_trans hlt hd) with rfl | habove
          · exact .inr (.parent hparent)
          · exact .inr (.further hparent habove)
  have hrun := h.run [] #[]
  rw [hentered, List.length_range] at hrun
  have hfull : t.fullWalk = ⟨[], (#[] : Array WalkEvent).appendList events⟩ := hrun
  have hwalk : t.walk = events := by
    rw [walk, hfull]
    simp
  rw [hwalk, hfull]
  exact ⟨h, hentered, rfl⟩

/-- The nodes of a tree in document order belong together: the root has no parent, all others stand once
among the children of one node in front of them, which is the root or an element, and the chain of
parents of each node ends at the root. -/
structure Arranged (t : Tree) : Prop where
  root : ∃ n children, t.node? root = some n ∧ n.content = .root children ∧ n.parent = none
  parent : ∀ id, 0 < id → id < t.size → ∃ p, t.parent? id = some p ∧ p < id ∧
    (p = Tree.root ∨ (t.element? p).isSome) ∧ (t.children p).toList.count id = 1 ∧
      ∀ q, id ∈ t.children q → q = p
  ascending : ∀ p, (t.children p).toList.Pairwise (· < ·) ∧ ∀ c ∈ t.children p, c < t.size
  chain : ∀ id, id < t.size → t.ChainFrom (t.parent? id) (t.ancestors id) ∧
    (id :: t.ancestors id).getLast? = some Tree.root

/-- A walk goes over the node `n` of index `id` between the events `front` and `back`: it enters the node,
reports `own`, goes over `inside`, and leaves the node. -/
structure GoesOver (t : Tree) (id : Nat) (n : Node) (front own inside back : List WalkEvent) :
    Prop where
  /-- As many nodes are entered and not left as the node has ancestors. -/
  depth : depthBehind 0 front = (t.ancestors id).length
  /-- An element reports its attributes, each with its argument and then its value behind it. -/
  element : ∀ e, n.content = .element e → own = e.attributes.toList.flatMap fun a =>
    .attributeOf id a :: a.containers.map .container
  mustache : ∀ c, n.content = .mustache c → own = [.container c]
  other : n.element? = none → (∀ c, n.content ≠ .mustache c) → own = []
  /-- Then comes its first child, if it has one. -/
  first : inside.head? = (n.children[0]?).map .enter
  /-- All that is below the node, and nothing else, is entered and left inside it. -/
  below : ∀ d, (.enter d ∈ inside ↔ t.Above id d) ∧ (.leave d ∈ inside ↔ t.Above id d)
  /-- The node is left nowhere else. -/
  once : .leave id ∉ front ++ own ++ inside ++ back
  /-- The siblings behind it are entered after it is left. -/
  siblings : ∀ s, id < s → s < t.size → t.parent? s = t.parent? id → .enter s ∈ back

/-- A walk over all nodes in document order. -/
structure WalksInOrder (t : Tree) (events : List WalkEvent) : Prop where
  entered : events.filterMap entered? = List.range t.size
  nodes : ∀ id n, t.node? id = some n → ∃ front own inside back,
    events = front ++ .enter id :: (own ++ inside) ++ .leave id :: back ∧
      t.GoesOver id n front own inside back

theorem Tour.head? (h : t.Tour ids events) : events.head? = ids.head?.map .enter := by
  cases h <;> rfl

include hl hp ha in
theorem walksInOrder : t.WalksInOrder t.walk := by
  obtain ⟨htour, hentered, -⟩ := walk_spec hl hp ha
  refine ⟨hentered, fun id n hn => ?_⟩
  obtain ⟨n', front, inside, back, hn', hinside, hsplit, hdepth⟩ := htour.exists_part hl (lt_size hn)
  obtain rfl := Option.some.inj (hn.symm.trans hn')
  have hleft : (t.walk.filterMap left?).Nodup :=
    (htour.left_perm.nodup_iff).2 (hentered ▸ List.nodup_range)
  have hbelow : ∀ d, .enter d ∈ inside ↔ t.Above id d := by
    intro d
    rw [← WalkEvent.mem_entered, hinside.mem_entered hl, hl.above_iff_child, children_eq hn]
    simp only [Array.mem_toList_iff]
  refine ⟨front, ofNode id n, inside, back, hsplit, ?_⟩
  rw [hsplit] at hentered hleft
  refine ⟨hdepth, fun e he => WalkEvent.ofNode_element he, fun c hc => by rw [ofNode, hc],
    fun he hm => ?_, ?_, fun d => ⟨hbelow d, ?_⟩, fun hmem => ?_, fun s hlt hsize hparent => ?_⟩
  · obtain ⟨content, parent, extent⟩ := n
    cases content with
    | root _ | text _ => rfl
    | element e => exact absurd he nofun
    | mustache c => exact absurd rfl (hm c)
  · rw [hinside.head?, List.head?_eq_getElem?, Array.getElem?_toList]
  · rw [← WalkEvent.mem_left, hinside.left_perm.mem_iff, WalkEvent.mem_entered, hbelow]
  · have hsides : (front ++ .enter id :: (ofNode id n ++ inside) ++ .leave id :: back).filterMap left? =
        (front ++ ofNode id n ++ inside).filterMap left? ++ id :: back.filterMap left? := by
      rw [List.append_assoc, List.filterMap_append, left_cons, List.filterMap_append,
        List.filterMap_append, WalkEvent.left_ofNode, List.append_nil, List.append_assoc]
    rw [hsides, List.nodup_middle, ← List.filterMap_append] at hleft
    exact (List.nodup_cons.1 hleft).1 (WalkEvent.mem_left.2 hmem)
  · have hsides : (front ++ .enter id :: (ofNode id n ++ inside) ++ .leave id :: back).filterMap
        entered? = front.filterMap entered? ++ id ::
          (inside.filterMap entered? ++ back.filterMap entered?) := by
      rw [List.append_assoc, List.filterMap_append, ← entered_cons]
    have hsorted : (List.range t.size).Pairwise (· < ·) := List.pairwise_lt_range
    have hmem : s ∈ List.range t.size := List.mem_range.2 hsize
    rw [← hentered, hsides] at hsorted hmem
    obtain ⟨q, hq, -⟩ := hl.parent s (by omega) hsize
    -- the sibling is neither in front of the node nor below it
    rcases List.mem_append.1 hmem with hfront | hrest
    · have := (List.pairwise_append.1 hsorted).2.2 s hfront id (List.mem_cons_self ..)
      omega
    · rcases List.mem_cons.1 hrest with rfl | hrest
      · omega
      · rcases List.mem_append.1 hrest with hin | hback
        · have habove := (hbelow s).1 (WalkEvent.mem_entered.1 hin)
          have hlt' := hp.below_lt_sibling (hparent ▸ hq) hq hlt (.inr habove)
          omega
        · exact WalkEvent.mem_entered.1 hback

/-- A chain of nodes that are there ends at the root. -/
theorem Linked.getLast?_chain (h : t.Linked) {scope : Option Nat} {chain : List Nat}
    (hc : t.ChainFrom scope chain) (hid : scope = some id) (hlt : id < t.size) :
    chain.getLast? = some Tree.root := by
  induction hc generalizing id with
  | outside => exact absurd hid nofun
  | @within j outer hc ih =>
    obtain rfl := Option.some.inj hid
    by_cases hroot : j = Tree.root
    · subst hroot
      rw [h.root] at hc
      obtain rfl := hc.unique .outside
      rfl
    · obtain ⟨p, hparent, hmem⟩ := h.parent j (Nat.pos_of_ne_zero hroot) hlt
      have hlast := ih hparent (Nat.lt_trans (h.child p j hmem).2.1 hlt)
      rw [List.getLast?_cons, hlast]
      rfl

include hl ha in
theorem arranged (hr : t.RootAlone) : t.Arranged where
  root := by
    obtain ⟨n, hn⟩ := exists_node hl.size
    have htype := (hr _ n hn).2 rfl
    have hparent : n.parent = none := by
      have hroot := hl.root
      rwa [parent?, show t.node? Tree.root = some n from hn] at hroot
    obtain ⟨content, parent, extent⟩ := n
    cases content with
    | root children => exact ⟨_, children, hn, rfl, hparent⟩
    | element _ | text _ | mustache _ => simp [Node.typeName] at htype
  parent id hpos hid := by
    obtain ⟨p, hparent, hmem⟩ := hl.parent id hpos hid
    refine ⟨p, hparent, (hl.child p id hmem).2.1, ?_,
      List.count_eq_one_of_mem (hl.distinct p) (Array.mem_toList_iff.2 hmem), fun q hq =>
        Option.some.inj ((hl.child q id hq).1.symm.trans hparent)⟩
    -- only the root and elements have children
    obtain ⟨n, hn⟩ := exists_node (Nat.lt_trans (hl.child p id hmem).2.1 hid)
    rw [children_eq hn] at hmem
    rw [element?_eq hn]
    have htype := hr p n hn
    obtain ⟨content, parent, extent⟩ := n
    cases content with
    | root children => exact .inl (htype.1 rfl)
    | element e => exact .inr rfl
    | text _ | mustache _ => simp [Node.children] at hmem
  ascending := ha
  chain id hid := by
    have hchain := hl.chainFrom_scopeChain (some id)
    refine ⟨?_, hl.getLast?_chain hchain rfl hid⟩
    cases hchain with
    | within hchain => exact hchain

end Tree

namespace Template

/-- The tree of a template is arranged in document order, and the walk goes over it in this order and comes
to its end. -/
theorem parse_walksInOrder (text : String) (o : Options) (reader : Script.Reader) :
    (parse text o reader).tree.Arranged ∧
      (parse text o reader).tree.WalksInOrder (parse text o reader).tree.walk ∧
      (parse text o reader).tree.fullWalk.tasks = [] := by
  have hshape : (outlineOf text o).tree.SameShape (parse text o reader).tree :=
    sameShape_parse text o
  have hlinked : (parse text o reader).tree.Linked := by
    obtain ⟨taken, hwhole⟩ := builderOf_whole text o
    rw [outlineOf_tree] at hshape
    exact hwhole.nests.linked.congr hshape.size hshape.parent hshape.children
  have hnumbered := outlineOf_numbered text o
  have hroots : (parse text o reader).tree.RootAlone := by
    intro id n hn
    have htype := parse_typeName? text o reader id
    rw [Tree.typeName?, hn, outlineOf_tree] at htype
    obtain ⟨n', hn', heq⟩ := Option.map_eq_some_iff.1 htype.symm
    rw [← heq]
    exact hnumbered.roots id n' hn'
  rw [outlineOf_tree] at hshape
  have hpreorder := hnumbered.preorder.congr hshape.size hshape.parent
  have hascending := hnumbered.ascending.congr hshape.size hshape.children
  exact ⟨Tree.arranged hlinked hascending hroots,
    Tree.walksInOrder hlinked hpreorder hascending,
    (Tree.walk_spec hlinked hpreorder hascending).2.2⟩

end Template
end TemplateSyntax
