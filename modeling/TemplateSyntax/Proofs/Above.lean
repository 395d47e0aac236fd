import TemplateSyntax.Proofs.Lookup
import TemplateSyntax.Proofs.TreeRanges

/-! # What stands above a node

A node of a tree that grows keeps its parent, and an element keeps its name and its attributes as they
were written.  The nodes above the place where the next one goes are the elements that are open, and the
root. -/

namespace TemplateSyntax

/-- What of a node stays as it is once the node is there. -/
structure NodeCore where
  parent : Option Nat
  element : Option (String × Array Attribute)
  isMustache : Bool

/-- Whether a node is a mustache. -/
def Node.isMustache (n : Node) : Bool :=
  match n.content with
  | .mustache _ => true
  | _ => false

/-- What stays of a node. -/
def Node.core (n : Node) : NodeCore :=
  ⟨n.parent, n.element?.map fun e => (e.name, e.attributes), n.isMustache⟩

namespace Tree

variable {t t' : Tree} {id d p a i : Nat} {opened outer : List Nat}

/-- What stays of the node of an index. -/
def core? (t : Tree) (id : Nat) : Option NodeCore := (t.node? id).map Node.core

/-- The node is a mustache. -/
def IsMustache (t : Tree) (id : Nat) : Prop := ∃ n c, t.node? id = some n ∧ n.content = .mustache c

/-- The attribute of an index of an element, as it was written. -/
def Writes (t : Tree) (id i : Nat) (x : PlainAttribute) : Prop :=
  ∃ e, t.element? id = some e ∧ e.attributes[i]? = some (.plain x)

/-- The node `a` is the parent of `d`, or the parent of that, and so on. -/
inductive Above (t : Tree) (a : Nat) : Nat → Prop
  | parent {d : Nat} (h : t.parent? d = some a) : Above t a d
  | further {d p : Nat} (h : t.parent? d = some p) (ha : Above t a p) : Above t a d

/-! ## What depends on the core of a node -/

theorem parent?_eq_core (t : Tree) (id : Nat) : t.parent? id = (t.core? id).bind NodeCore.parent := by
  rw [parent?, core?]
  cases t.node? id <;> rfl

theorem element?_eq_core (t : Tree) (id : Nat) : (t.element? id).map (fun e => (e.name, e.attributes)) =
    (t.core? id).bind NodeCore.element := by
  rw [element?, core?]
  cases t.node? id <;> rfl

theorem isMustache_iff : t.IsMustache id ↔ (t.node? id).map Node.isMustache = some true := by
  rw [Option.map_eq_some_iff]
  refine exists_congr fun n => ?_
  constructor
  · rintro ⟨c, hn, hc⟩
    exact ⟨hn, by rw [Node.isMustache, hc]⟩
  · rintro ⟨hn, hm⟩
    unfold Node.isMustache at hm
    split at hm
    · next c hc => exact ⟨c, hn, hc⟩
    · exact absurd hm Bool.false_ne_true

theorem isMustache_iff_core : t.IsMustache id ↔ ∃ c, t.core? id = some c ∧ c.isMustache = true := by
  rw [isMustache_iff, core?]
  cases t.node? id with
  | none => simp
  | some n => simp [Node.core]

/-- Elements of the same core have the same name and attributes. -/
theorem element?_of_core (h : t'.core? id = t.core? id) {e : Element} (he : t.element? id = some e) :
    ∃ e', t'.element? id = some e' ∧ e'.name = e.name ∧ e'.attributes = e.attributes := by
  have hsame : (t'.element? id).map (fun e => (e.name, e.attributes)) =
      (t.element? id).map fun e => (e.name, e.attributes) := by
    rw [element?_eq_core, element?_eq_core, h]
  rw [he] at hsame
  obtain ⟨e', he', heq⟩ := Option.map_eq_some_iff.1 hsame
  exact ⟨e', he', (Prod.mk.inj heq).1, (Prod.mk.inj heq).2⟩

theorem writes_congr (h : t'.core? id = t.core? id) {x : PlainAttribute} :
    t'.Writes id i x ↔ t.Writes id i x := by
  constructor
  · rintro ⟨e, he, hx⟩
    obtain ⟨e', he', -, hattributes⟩ := element?_of_core h.symm he
    exact ⟨e', he', hattributes ▸ hx⟩
  · rintro ⟨e, he, hx⟩
    obtain ⟨e', he', -, hattributes⟩ := element?_of_core h he
    exact ⟨e', he', hattributes ▸ hx⟩

theorem above_congr (h : ∀ j, t'.parent? j = t.parent? j) : t'.Above a d ↔ t.Above a d := by
  constructor <;> intro ha
  · induction ha with
    | parent hp => exact .parent (h _ ▸ hp)
    | further hp _ ih => exact .further (h _ ▸ hp) ih
  · induction ha with
    | parent hp => exact .parent ((h _).trans hp)
    | further hp _ ih => exact .further ((h _).trans hp) ih

/-- What is above a node is above its parent, or is the parent. -/
theorem above_iff (h : t.parent? d = some p) : t.Above a d ↔ a = p ∨ t.Above a p := by
  constructor
  · intro ha
    cases ha with
    | parent hp => exact .inl (Option.some.inj (hp.symm.trans h))
    | further hp ha =>
      obtain rfl := Option.some.inj (hp.symm.trans h)
      exact .inr ha
  · rintro (rfl | ha)
    · exact .parent h
    · exact .further h ha

theorem not_above (h : t.parent? d = none) : ¬ t.Above a d := by
  intro ha
  cases ha with
  | parent hp | further hp => exact absurd (h.symm.trans hp) nofun

/-- A chain holds what stands above its start. -/
theorem ChainFrom.mem_iff {chain : List Nat} (h : t.ChainFrom (t.parent? d) chain) :
    a ∈ chain ↔ t.Above a d := by
  generalize hp : t.parent? d = p at h
  induction h generalizing d with
  | outside => simpa using not_above hp
  | @within id outer _ ih => rw [List.mem_cons, above_iff hp, ih rfl]

/-- The ancestors of a node stand above it. -/
theorem Linked.mem_ancestors_iff (h : t.Linked) : a ∈ t.ancestors d ↔ t.Above a d := by
  have hchain := h.chainFrom_scopeChain (some d)
  cases hchain with
  | within h => exact h.mem_iff

/-! ## The elements that are open -/

/-- Each of the elements stands in the next one, and the last one in the root. -/
def Chain (t : Tree) : List Nat → Prop
  | [] => True
  | id :: outer => t.parent? id = some (tip outer) ∧ t.Chain outer

theorem Chain.congr (h : t.Chain opened) (hp : ∀ j ∈ opened, t'.parent? j = t.parent? j) :
    t'.Chain opened := by
  induction opened with
  | nil => trivial
  | cons id outer ih =>
    exact ⟨(hp id (List.mem_cons_self ..)).trans h.1,
      ih h.2 fun j hj => hp j (List.mem_cons_of_mem id hj)⟩

/-- The place of the next node stands in the elements that are open, and in the root. -/
theorem Chain.mem_iff (h : t.Chain opened) (hroot : t.parent? root = none) :
    a = tip opened ∨ t.Above a (tip opened) ↔ a ∈ opened ∨ a = root := by
  induction opened with
  | nil =>
    have hno : ¬ t.Above a root := not_above hroot
    simp [hno, tip]
  | cons id outer ih =>
    rw [show tip (id :: outer) = id from rfl, above_iff h.1, ih h.2, List.mem_cons, or_assoc]

/-! ## Trees that grow -/

theorem core?_modify {f : Node → Node} (h : ∀ n, (f n).core = n.core) :
    (t.modify id f).core? d = t.core? d := by
  rw [core?, core?, map_node?_modify _ fun n _ => h n]

theorem core?_setEndTag {tag : Extent} :
    (t.modifyElement id fun e => { e with endTag := some tag }).core? d = t.core? d := by
  refine core?_modify fun n => ?_
  obtain ⟨content, parent, extent⟩ := n
  cases content <;> rfl

theorem core?_append {content : NodeContent} {extent : Extent} (hd : d ≠ t.size) :
    (t.append p content extent).core? d = t.core? d := by
  rw [core?, node?_append hd]
  refine core?_modify fun n => ?_
  obtain ⟨content, parent, extent⟩ := n
  cases content <;> rfl

theorem core?_append_self {content : NodeContent} {extent : Extent} :
    (t.append p content extent).core? t.size = some (Node.core ⟨content, some p, extent⟩) := by
  rw [core?, node?_append_self]
  rfl

theorem core?_eq_none_iff : t.core? id = none ↔ t.size ≤ id := by
  rw [core?, Option.map_eq_none_iff, ← Option.not_isSome_iff_eq_none, node?_isSome, Nat.not_lt]

/-- The mustaches behind a new node are those that were there, and the node if it is one. -/
theorem isMustache_append {content : NodeContent} {extent : Extent} :
    (t.append p content extent).IsMustache id ↔
      t.IsMustache id ∨ (id = t.size ∧ ∃ c, content = .mustache c) := by
  rw [isMustache_iff_core, isMustache_iff_core]
  by_cases hid : id = t.size
  · subst hid
    rw [core?_append_self, core?_eq_none_iff.2 (Nat.le_refl _)]
    cases content <;> simp [Node.core, Node.isMustache]
  · rw [core?_append hid]
    simp [hid]

theorem Above.lt_size (h : t.Above a d) (hp : ∀ d p, t.parent? d = some p → p < t.size) :
    a < t.size := by
  induction h with
  | parent h => exact hp _ _ h
  | further _ _ ih => exact ih

/-- A new node stands above none that is there already. -/
theorem above_append {content : NodeContent} {extent : Extent}
    (hp : ∀ d p, t.parent? d = some p → p < t.size) (hd : d < t.size) :
    (t.append p content extent).Above a d ↔ t.Above a d := by
  have hsame : ∀ j < t.size, (t.append p content extent).parent? j = t.parent? j := fun j hj =>
    parent?_append (Nat.ne_of_lt hj)
  constructor <;> intro ha
  · induction ha with
    | parent h => exact .parent (hsame _ hd ▸ h)
    | further h _ ih =>
      rw [hsame _ hd] at h
      exact .further h (ih (hp _ _ h))
  · induction ha with
    | parent h => exact .parent ((hsame _ hd).trans h)
    | further h _ ih => exact .further ((hsame _ hd).trans h) (ih (hp _ _ h))

end Tree
end TemplateSyntax
