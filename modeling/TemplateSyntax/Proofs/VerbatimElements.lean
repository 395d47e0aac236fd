import TemplateSyntax.Proofs.Above
import TemplateSyntax.Proofs.InterpolationOff
import TemplateSyntax.Proofs.ModeAgrees

/-! # Elements with `v-pre`

An element with `v-pre` has no other directive, and below it there are neither directives nor
mustaches.  Everywhere else each attribute that is a directive by its name is put on record as one. -/

namespace TemplateSyntax

namespace Tree

variable {t t' : Tree} {id d i : Nat}

/-- The element has an attribute `v-pre`. -/
def HasPre (t : Tree) (id : Nat) : Prop := ∃ i x, t.Writes id i x ∧ x.key.rawName = "v-pre"

/-- The attribute is a directive, if nothing is said outside of its element: `v-pre` alone if it is
there, and else what is one by its name. -/
def Chooses (t : Tree) (id i : Nat) : Prop :=
  ∃ e x, t.element? id = some e ∧ e.attributes[i]? = some (.plain x) ∧
    ((t.HasPre id ∧ x.key.rawName = "v-pre") ∨
      (¬ t.HasPre id ∧ isDirectiveName x.key.rawName e.name = true))

/-- No element that the node stands in has an attribute `v-pre`. -/
def OutsidePre (t : Tree) (d : Nat) : Prop := ∀ a, t.Above a d → ¬ t.HasPre a

theorem hasPre_congr (h : t'.core? id = t.core? id) : t'.HasPre id ↔ t.HasPre id :=
  exists_congr fun _ => exists_congr fun _ => and_congr_left' (writes_congr h)

theorem HasPre.lt_size (h : t.HasPre id) : id < t.size := by
  obtain ⟨i, x, ⟨e, he, -⟩, -⟩ := h
  obtain ⟨n, hn, -⟩ := Option.bind_eq_some_iff.1 he
  exact Tree.lt_size hn

theorem Chooses.lt_size (h : t.Chooses id i) : id < t.size := by
  obtain ⟨e, x, he, -⟩ := h
  obtain ⟨n, hn, -⟩ := Option.bind_eq_some_iff.1 he
  exact Tree.lt_size hn

theorem Chooses.congr (h : t.Chooses id i) (hc : t'.core? id = t.core? id) : t'.Chooses id i := by
  obtain ⟨e, x, he, hx, hor⟩ := h
  obtain ⟨e', he', hname, hattributes⟩ := element?_of_core hc he
  refine ⟨e', x, he', hattributes ▸ hx, ?_⟩
  rw [hasPre_congr hc, hname]
  exact hor

theorem chooses_congr (h : t'.core? id = t.core? id) : t'.Chooses id i ↔ t.Chooses id i :=
  ⟨fun hc => hc.congr h.symm, fun hc => hc.congr h⟩

theorem getElem?_attributes {e : Element} {attributes : Array PlainAttribute}
    (ha : e.attributes = attributes.map Attribute.plain) {x : PlainAttribute} :
    attributes[i]? = some x ↔ e.attributes[i]? = some (.plain x) := by
  rw [ha, Array.getElem?_map]
  cases attributes[i]? <;> simp

theorem any_iff_hasPre {e : Element} {attributes : Array PlainAttribute}
    (he : t.element? id = some e) (ha : e.attributes = attributes.map Attribute.plain) :
    (attributes.any fun a => a.key.rawName == "v-pre") = true ↔ t.HasPre id := by
  rw [Array.any_eq_true]
  constructor
  · rintro ⟨i, hi, hx⟩
    exact ⟨i, attributes[i], ⟨e, he, (getElem?_attributes ha).1 (Array.getElem?_eq_getElem hi)⟩,
      by simpa using hx⟩
  · rintro ⟨i, x, ⟨e', he', hx⟩, hname⟩
    obtain rfl := Option.some.inj (he.symm.trans he')
    obtain ⟨hi, rfl⟩ := Array.getElem?_eq_some_iff.1 ((getElem?_attributes ha).2 hx)
    exact ⟨i, hi, by simpa using hname⟩

/-- The directives of an element by its attributes. -/
theorem mem_directiveIndices {e : Element} {attributes : Array PlainAttribute}
    (he : t.element? id = some e) (ha : e.attributes = attributes.map Attribute.plain) :
    i ∈ Builder.directiveIndices e.name attributes ↔ t.Chooses id i := by
  have hpre := any_iff_hasPre he ha
  unfold Builder.directiveIndices
  dsimp only
  rw [List.mem_filter, List.mem_range]
  constructor
  · rintro ⟨hi, hchosen⟩
    rw [Array.getElem?_eq_getElem hi] at hchosen
    refine ⟨e, attributes[i], he, (getElem?_attributes ha).1 (Array.getElem?_eq_getElem hi), ?_⟩
    dsimp only at hchosen
    split at hchosen
    · next hp => exact .inl ⟨hpre.1 hp, by simpa using hchosen⟩
    · next hp => exact .inr ⟨mt hpre.2 hp, hchosen⟩
  · rintro ⟨e', x, he', hx, hor⟩
    obtain rfl := Option.some.inj (he.symm.trans he')
    obtain ⟨hi, rfl⟩ := Array.getElem?_eq_some_iff.1 ((getElem?_attributes ha).2 hx)
    refine ⟨hi, ?_⟩
    rw [Array.getElem?_eq_getElem hi]
    dsimp only
    rcases hor with ⟨hp, hname⟩ | ⟨hp, hname⟩
    · rw [if_pos (hpre.2 hp)]
      simpa using hname
    · rw [if_neg (mt hpre.1 hp)]
      exact hname

end Tree

namespace Builder

open TemplateSyntax.Tree (tip)

variable {b b' : Builder} {id : Nat} {outer opened : List Nat} {pre : Nat → Prop} {u : MarkupUnit}

/-- The open element that turned interpolation off has `v-pre`, and none around it has.  If there is
none, no open element has `v-pre`. -/
def Marks (pre : Nat → Prop) (opened : List Nat) : Option Nat → Prop
  | none => ∀ id ∈ opened, ¬ pre id
  | some v => ∃ inner outer, opened = inner ++ v :: outer ∧ v ∉ inner ∧ pre v ∧
      ∀ id ∈ outer, ¬ pre id

theorem Marks.congr {pre' : Nat → Prop} {v : Option Nat} (h : Marks pre opened v)
    (hpre : ∀ id ∈ opened, pre' id ↔ pre id) : Marks pre' opened v := by
  cases v with
  | none => exact fun id hid => mt (hpre id hid).1 (h id hid)
  | some v =>
    obtain ⟨inner, outer, rfl, hnot, hv, houter⟩ := h
    refine ⟨inner, outer, rfl, hnot, (hpre v (by simp)).2 hv, fun id hid => ?_⟩
    exact mt (hpre id (by simp [hid])).1 (houter id hid)

/-- The mark goes with its element. -/
theorem Marks.close {v : Option Nat} (h : Marks pre (id :: outer) v) :
    Marks pre outer (if v == some id then none else v) := by
  cases v with
  | none => exact fun j hj => h j (List.mem_cons_of_mem id hj)
  | some v =>
    obtain ⟨inner, rest, heq, hnot, hv, hrest⟩ := h
    cases inner with
    | nil =>
      obtain ⟨rfl, rfl⟩ := List.cons.inj heq
      rw [if_pos (beq_self_eq_true _)]
      exact hrest
    | cons j inner =>
      obtain ⟨rfl, rfl⟩ := List.cons.inj heq
      have hne : (some v == some id) = false := by
        simpa using fun heq : v = id => hnot (heq ▸ List.mem_cons_self ..)
      rw [hne]
      exact ⟨inner, rest, rfl, fun hmem => hnot (List.mem_cons_of_mem id hmem), hv, hrest⟩

/-- A new element is marked if it has `v-pre` and stands in none that is. -/
theorem Marks.open {v : Option Nat} (h : Marks pre opened v) (hnew : id ∉ opened) :
    (v.isSome = true → Marks pre (id :: opened) v) ∧
      (v = none → (pre id → Marks pre (id :: opened) (some id)) ∧
        (¬ pre id → Marks pre (id :: opened) none)) := by
  refine ⟨fun hsome => ?_, ?_⟩
  · obtain ⟨v, rfl⟩ := Option.isSome_iff_exists.1 hsome
    obtain ⟨inner, rest, rfl, hnot, hv, hrest⟩ := h
    refine ⟨id :: inner, rest, rfl, fun hmem => ?_, hv, hrest⟩
    rcases List.mem_cons.1 hmem with rfl | hmem
    · exact hnew (by simp)
    · exact hnot hmem
  · rintro rfl
    exact ⟨fun hp => ⟨[], opened, rfl, List.not_mem_nil, hp, h⟩,
      fun hp => List.forall_mem_cons.2 ⟨hp, h⟩⟩

/-- What holds of a builder: the directives on record are those that count, and no mustache stands
below an element with `v-pre`. -/
structure Honours (b : Builder) : Prop where
  size : 0 < b.tree.size
  root : b.tree.parent? Tree.root = none ∧ b.tree.element? Tree.root = none
  parents : ∀ d p, b.tree.parent? d = some p → p < b.tree.size
  there : ∀ id ∈ b.opened, id < b.tree.size
  chain : b.tree.Chain b.opened
  marks : Marks b.tree.HasPre b.opened b.verbatim
  directives : ∀ id i, (id, i) ∈ b.directives ↔ b.tree.Chooses id i ∧ b.tree.OutsidePre id
  mustaches : ∀ id, b.tree.IsMustache id → b.tree.OutsidePre id

/-- What is above a node and has `v-pre` depends on the cores of nodes. -/
theorem outsidePre_congr {t t' : Tree} {d : Nat} (h : ∀ j, t'.core? j = t.core? j) :
    t'.OutsidePre d ↔ t.OutsidePre d := by
  have hparent : ∀ j, t'.parent? j = t.parent? j := fun j => by
    rw [Tree.parent?_eq_core, Tree.parent?_eq_core, h]
  exact forall_congr' fun a => imp_congr (Tree.above_congr hparent) (not_congr (Tree.hasPre_congr (h a)))

/-- Nothing but the cores of nodes counts. -/
theorem Honours.retree {t : Tree} (h : b.Honours) (hc : ∀ j, t.core? j = b.tree.core? j) :
    ({ b with tree := t } : Builder).Honours := by
  have hsize : ∀ j, j < t.size ↔ j < b.tree.size := fun j => by
    rw [← Nat.not_le, ← Nat.not_le, ← Tree.core?_eq_none_iff, ← Tree.core?_eq_none_iff, hc]
  have hparent : ∀ j, t.parent? j = b.tree.parent? j := fun j => by
    rw [Tree.parent?_eq_core, Tree.parent?_eq_core, hc]
  refine ⟨(hsize 0).2 h.size, ⟨(hparent _).trans h.root.1, ?_⟩, fun d p hp => ?_, fun id hid => ?_,
    h.chain.congr fun j _ => hparent j, h.marks.congr fun id _ => Tree.hasPre_congr (hc id),
    fun id i => ?_, fun id hid => ?_⟩
  · have helement := Tree.element?_eq_core t Tree.root
    rw [hc, ← Tree.element?_eq_core, h.root.2] at helement
    exact Option.map_eq_none_iff.1 helement
  · exact (hsize p).2 (h.parents d p ((hparent d).symm.trans hp))
  · exact (hsize id).2 (h.there id hid)
  · refine (h.directives id i).trans ?_
    rw [outsidePre_congr hc, Tree.chooses_congr (hc id)]
  · refine (outsidePre_congr hc).2 (h.mustaches id ?_)
    rw [Tree.isMustache_iff_core, hc, ← Tree.isMustache_iff_core] at hid
    exact hid

/-- An element that is closed keeps its core. -/
theorem closeElement_core (b : Builder) (id j : Nat) :
    (b.closeElement id).tree.core? j = b.tree.core? j := by
  have hplace : ∀ f : Node → Extent,
      (b.tree.modify id fun n => { n with extent := f n }).core? j = b.tree.core? j := fun f =>
    Tree.core?_modify fun n => rfl
  unfold closeElement
  dsimp only
  cases b.tree.element? id with
  | none => split <;> rfl
  | some e => split <;> exact hplace _

/-- Closing an element takes back its mark. -/
theorem closeElement_eq (b : Builder) (id : Nat) : (b.closeElement id).opened = b.opened ∧
    (b.closeElement id).directives = b.directives ∧
    (b.closeElement id).verbatim = if b.verbatim == some id then none else b.verbatim := by
  unfold closeElement
  dsimp only
  split
  · next h =>
    have h' : (b.verbatim == some id) = true := h
    exact ⟨rfl, rfl, (if_pos h').symm⟩
  · next h =>
    have h' : ¬ (b.verbatim == some id) = true := h
    exact ⟨rfl, rfl, (if_neg h').symm⟩

theorem Honours.setLexer (h : b.Honours) (x : Lexer) : ({ b with lexer := x } : Builder).Honours :=
  { h with }

/-- An element that is closed loses its mark, and nothing else counts. -/
theorem Honours.closeElement (h : ({ b with
      opened := outer, verbatim := if b.verbatim == some id then none else b.verbatim } :
      Builder).Honours) : ({ b with opened := outer }.closeElement id).Honours := by
  have hclosed := h.retree (closeElement_core { b with opened := outer } id)
  obtain ⟨ho, hd, hv⟩ := closeElement_eq { b with opened := outer } id
  generalize { b with opened := outer }.closeElement id = b' at hclosed ho hd hv ⊢
  exact {
    size := hclosed.size
    root := hclosed.root
    parents := hclosed.parents
    there := ho ▸ hclosed.there
    chain := ho ▸ hclosed.chain
    marks := by
      rw [ho, hv]
      exact hclosed.marks
    directives := hd ▸ hclosed.directives
    mustaches := hclosed.mustaches }

/-- The innermost open element is closed. -/
theorem Honours.closeHead (h : b.Honours) (ho : b.opened = id :: outer) :
    ({ b with opened := outer }.closeElement id).Honours := by
  have hchain := h.chain
  have hmarks := h.marks
  rw [ho] at hchain hmarks
  exact closeElement { h with
    there := fun j hj => h.there j (ho ▸ List.mem_cons_of_mem id hj)
    chain := hchain.2
    marks := hmarks.close }

theorem Honours.closeInnermost (h : b.Honours) (count : Nat) : (b.closeInnermost count).Honours := by
  induction count generalizing b with
  | zero => exact h
  | succ count ih =>
    cases ho : b.opened with
    | nil => rwa [closeInnermost_nil ho]
    | cons id outer =>
      rw [closeInnermost_cons ho]
      exact ih (h.closeHead ho)

theorem Honours.closeImplied (h : b.Honours) (name : String) : (b.closeImplied name).Honours := by
  unfold Builder.closeImplied
  split
  · next ho _ =>
    split
    · exact (h.closeHead ho).setLexer _
    · exact h
  · exact h

theorem Honours.checkNamespaces (h : b.Honours) (ns : Namespace)
    (attributes : Array PlainAttribute) : (b.checkNamespaces ns attributes).Honours := by
  unfold Builder.checkNamespaces
  refine Array.foldl_induction (fun _ (b' : Builder) => b'.Honours) h fun i b' ih => ?_
  repeat' split
  all_goals exact { ih with }

theorem Honours.onEndTag (h : b.Honours) (tag : EndTag) : (b.onEndTag tag).Honours := by
  unfold Builder.onEndTag
  split
  · exact ((h.retree fun j => Tree.core?_setEndTag).closeInnermost _).setLexer _
  · exact { h with }

/-- What stands above the place of the next node is open, or the root. -/
theorem Honours.current_iff (h : b.Honours) {a : Nat} :
    a = b.current ∨ b.tree.Above a b.current ↔ a ∈ b.opened ∨ a = Tree.root :=
  h.chain.mem_iff h.root.1

theorem Honours.not_hasPre_root (h : b.Honours) : ¬ b.tree.HasPre Tree.root := by
  rintro ⟨i, x, ⟨e, he, -⟩, -⟩
  exact absurd (h.root.2.symm.trans he) nofun

/-- Where interpolation is on, the next node stands in no element with `v-pre`. -/
theorem Honours.outside_iff (h : b.Honours) :
    (∀ a, a = b.current ∨ b.tree.Above a b.current → ¬ b.tree.HasPre a) ↔ b.verbatim = none := by
  constructor
  · intro hno
    cases hv : b.verbatim with
    | none => rfl
    | some v =>
      have hmarks := h.marks
      rw [hv] at hmarks
      obtain ⟨inner, rest, ho, -, hpre, -⟩ := hmarks
      exact absurd hpre (hno v (h.current_iff.2 (.inl (ho ▸ by simp))))
  · intro hv a ha
    have hmarks := h.marks
    rw [hv] at hmarks
    rcases h.current_iff.1 ha with hopen | rfl
    · exact hmarks a hopen
    · exact h.not_hasPre_root

theorem Honours.current_lt (h : b.Honours) : b.current < b.tree.size := by
  rcases h.current_iff.1 (.inl rfl) with hopen | hroot
  · exact h.there _ hopen
  · rw [hroot]
    exact h.size

/-- A new node leaves what stands above the nodes that were there. -/
theorem Honours.outsidePre_append (h : b.Honours) (content : NodeContent) (extent : Extent) {d : Nat}
    (hd : d < b.tree.size) :
    (b.tree.append b.current content extent).OutsidePre d ↔ b.tree.OutsidePre d := by
  refine forall_congr' fun a => ?_
  rw [Tree.above_append h.parents hd]
  exact forall_congr' fun ha => not_congr
    (Tree.hasPre_congr (Tree.core?_append (Nat.ne_of_lt (ha.lt_size h.parents))))

/-- The new node stands in no element with `v-pre` where interpolation is on. -/
theorem Honours.outsidePre_new (h : b.Honours) (content : NodeContent) (extent : Extent) :
    (b.tree.append b.current content extent).OutsidePre b.tree.size ↔ b.verbatim = none := by
  have hself : (b.tree.append b.current content extent).parent? b.tree.size = some b.current := by
    rw [Tree.parent?_eq_core, Tree.core?_append_self]
    rfl
  rw [← h.outside_iff]
  refine forall_congr' fun a => ?_
  rw [Tree.above_iff hself, Tree.above_append h.parents h.current_lt]
  refine forall_congr' fun ha => not_congr (Tree.hasPre_congr (Tree.core?_append (Nat.ne_of_lt ?_)))
  rcases ha with rfl | ha
  · exact h.current_lt
  · exact ha.lt_size h.parents

/-- The record behind a new node: what was there, and what was found at the node. -/
theorem Honours.mem_grown (h : b.Honours) (content : NodeContent) (extent : Extent) {found : List Nat}
    (hd : ∀ i, i ∈ found ↔ b.verbatim = none ∧
      (b.tree.append b.current content extent).Chooses b.tree.size i) (i : Nat) :
    (id, i) ∈ b.directives ++ (found.map fun i => (b.tree.size, i)) ↔
      (b.tree.append b.current content extent).Chooses id i ∧
        (b.tree.append b.current content extent).OutsidePre id := by
  have hfound : (id, i) ∈ (found.map fun i => (b.tree.size, i)) ↔
      id = b.tree.size ∧ i ∈ found := by
    rw [List.mem_map]
    constructor
    · rintro ⟨j, hj, heq⟩
      obtain ⟨rfl, rfl⟩ := Prod.mk.inj heq
      exact ⟨rfl, hj⟩
    · rintro ⟨rfl, hi⟩
      exact ⟨i, hi, rfl⟩
  rw [← Array.mem_toList_iff, Array.toList_appendList, List.mem_append, Array.mem_toList_iff, hfound,
    h.directives]
  by_cases hid : id = b.tree.size
  · subst hid
    have hno : ¬ b.tree.Chooses b.tree.size i := fun hc => Nat.lt_irrefl _ hc.lt_size
    simp [hno, hd i, h.outsidePre_new, and_comm]
  · simp only [hid, false_and, or_false, Tree.chooses_congr (Tree.core?_append hid)]
    exact and_congr_right fun hc => (h.outsidePre_append content extent hc.lt_size).symm

/-- A new node is in its place.  If it is an element, its directives are put on record, provided that it
stands in no element with `v-pre`. -/
theorem Honours.grow (h : b.Honours) (content : NodeContent) (extent : Extent) {found : List Nat}
    (hm : ∀ c, content = .mustache c → b.verbatim = none)
    (hd : ∀ i, i ∈ found ↔ b.verbatim = none ∧
      (b.tree.append b.current content extent).Chooses b.tree.size i) :
    ({ b with
      tree := b.tree.append b.current content extent
      directives := b.directives ++ found.map fun i => (b.tree.size, i) } : Builder).Honours := by
  have hsize := b.tree.size_append b.current content extent
  have hparent : ∀ j, j ≠ b.tree.size →
      (b.tree.append b.current content extent).parent? j = b.tree.parent? j := fun j hj =>
    Tree.parent?_append hj
  have hcore : ∀ j, j ≠ b.tree.size →
      (b.tree.append b.current content extent).core? j = b.tree.core? j := fun j hj =>
    Tree.core?_append hj
  have hroot : Tree.root ≠ b.tree.size := Nat.ne_of_lt h.size
  exact {
    size := by
      show 0 < (b.tree.append b.current content extent).size
      omega
    root := by
      refine ⟨(hparent _ hroot).trans h.root.1, ?_⟩
      have helement := Tree.element?_eq_core (b.tree.append b.current content extent) Tree.root
      rw [hcore _ hroot, ← Tree.element?_eq_core, h.root.2] at helement
      exact Option.map_eq_none_iff.1 helement
    parents := fun d p hp => by
      show p < (b.tree.append b.current content extent).size
      rw [hsize]
      by_cases hd : d = b.tree.size
      · rw [hd, Tree.parent?_eq_core, Tree.core?_append_self] at hp
        obtain rfl : b.current = p := Option.some.inj hp
        exact Nat.lt_succ_of_lt h.current_lt
      · exact Nat.lt_succ_of_lt (h.parents d p ((hparent d hd).symm.trans hp))
    there := fun id hid => by
      show id < (b.tree.append b.current content extent).size
      rw [hsize]
      exact Nat.lt_succ_of_lt (h.there id hid)
    chain := h.chain.congr fun j hj => hparent j (Nat.ne_of_lt (h.there j hj))
    marks := h.marks.congr fun j hj => Tree.hasPre_congr (hcore j (Nat.ne_of_lt (h.there j hj)))
    directives := fun id i => h.mem_grown content extent hd i
    mustaches := fun id hid => by
      show (b.tree.append b.current content extent).OutsidePre id
      rcases Tree.isMustache_append.1 hid with hid | ⟨rfl, c, hc⟩
      · have hlt : id < b.tree.size := by
          obtain ⟨n, c, hn, -⟩ := hid
          exact Tree.lt_size hn
        exact (h.outsidePre_append content extent hlt).2 (h.mustaches id hid)
      · exact (h.outsidePre_new content extent).2 (hm c hc) }

/-- A text or a mustache is added. -/
theorem Honours.addLeaf (h : b.Honours) (content : NodeContent) (extent : Extent)
    (hm : ∀ c, content = .mustache c → b.verbatim = none) (hleaf : ∀ e, content ≠ .element e) :
    (b.addNode content extent).Honours := by
  have hnone : ∀ i, i ∈ ([] : List Nat) ↔ b.verbatim = none ∧
      (b.tree.append b.current content extent).Chooses b.tree.size i := by
    refine fun i => ⟨fun hi => absurd hi List.not_mem_nil, fun hi => ?_⟩
    obtain ⟨-, e, -, he, -⟩ := hi
    rw [Tree.element?_eq (Tree.node?_append_self ..), Node.element?] at he
    split at he
    · next e' heq => exact absurd heq (hleaf e')
    · cases he
  have hgrown := h.grow content extent hm hnone
  have hdirectives : ∀ id i, (id, i) ∈ b.directives ↔
      (b.tree.append b.current content extent).Chooses id i ∧
        (b.tree.append b.current content extent).OutsidePre id := by
    simpa using hgrown.directives
  exact { hgrown with directives := hdirectives }

/-- Which directives of a new element are put on record. -/
theorem scheduleDirectives_directives (b : Builder) (id : Nat) (name : String)
    (attributes : Array PlainAttribute) :
    (b.scheduleDirectives id name attributes).directives = b.directives ++
        ((if b.verbatim.isSome then [] else directiveIndices name attributes).map
          fun i => (id, i)) := by
  unfold scheduleDirectives
  split
  · simp
  · dsimp only
    split <;> rfl

/-- A new element is marked until it is closed. -/
theorem Marks.scheduleDirectives (name : String) {attributes : Array PlainAttribute}
    (h : Marks pre b.opened b.verbatim) (hnew : id ∉ b.opened)
    (hpre : (attributes.any fun a => a.key.rawName == "v-pre") = true ↔ pre id) :
    Marks pre (id :: b.opened) (b.scheduleDirectives id name attributes).verbatim ∧
      (if (b.scheduleDirectives id name attributes).verbatim == some id then none
        else (b.scheduleDirectives id name attributes).verbatim) = b.verbatim := by
  obtain ⟨hsome, hnone⟩ := h.open hnew
  unfold Builder.scheduleDirectives
  split
  · next hv =>
    refine ⟨hsome hv, if_neg ?_⟩
    obtain ⟨v, hv⟩ := Option.isSome_iff_exists.1 hv
    rw [hv] at h
    obtain ⟨inner, rest, ho, -⟩ := h
    rw [hv, beq_iff_eq, Option.some.injEq]
    rintro rfl
    exact hnew (ho ▸ by simp)
  · next hv =>
    have hv : b.verbatim = none := by simpa using hv
    dsimp only
    split
    · next hp => exact ⟨(hnone hv).1 (hpre.1 hp), by simp [hv]⟩
    · next hp =>
      show Marks pre (id :: b.opened) b.verbatim ∧
        (if b.verbatim == some id then none else b.verbatim) = b.verbatim
      rw [hv]
      exact ⟨(hnone hv).2 (mt hpre.2 hp), by simp⟩

theorem Honours.onStartTag (h : b.Honours) (tag : StartTag) : (b.onStartTag tag).Honours := by
  unfold Builder.onStartTag
  dsimp only
  have himplied := h.closeImplied tag.rawName.toLower
  generalize b.closeImplied tag.rawName.toLower = b₀ at himplied
  generalize ElementClass.namespaceOf b₀.currentElement? tag.rawName.toLower tag = ns
  generalize hattributes : tag.attributes.map (plainAttribute ns) = attributes
  have hchecked := himplied.checkNamespaces ns attributes
  generalize b₀.checkNamespaces ns attributes = b₁ at hchecked
  generalize hname : ns.elementName tag.rawName = name
  generalize hnew : Element.mk _ _ _ _ _ _ _ _ _ = e
  have hparts : e.name = name ∧ e.attributes = attributes.map Attribute.plain := by
    rw [← hnew]
    exact ⟨rfl, rfl⟩
  have hthere : (b₁.tree.append b₁.current (.element e) tag.extent).element? b₁.tree.size = some e :=
    Tree.element?_eq (Tree.node?_append_self b₁.tree b₁.current (.element e) tag.extent)
  have hfound : ∀ i, i ∈ (if b₁.verbatim.isSome then [] else directiveIndices name attributes) ↔
      b₁.verbatim = none ∧
        (b₁.tree.append b₁.current (.element e) tag.extent).Chooses b₁.tree.size i := by
    intro i
    rw [← hparts.1, ← Tree.mem_directiveIndices hthere hparts.2]
    cases b₁.verbatim <;> simp
  have hgrown := hchecked.grow (.element e) tag.extent (fun c hc => absurd hc nofun) hfound
  have hpre : (attributes.any fun a => a.key.rawName == "v-pre") = true ↔
      (b₁.tree.append b₁.current (.element e) tag.extent).HasPre b₁.tree.size :=
    Tree.any_iff_hasPre hthere hparts.2
  have hsize := b₁.tree.size_append b₁.current (.element e) tag.extent
  have hplace : (b₁.tree.append b₁.current (.element e) tag.extent).parent? b₁.tree.size =
      some (tip b₁.opened) := by
    rw [Tree.parent?_eq_core, Tree.core?_append_self]
    rfl
  obtain ⟨hopened, htree, -⟩ := scheduleDirectives_stays (b₁.addNode (.element e) tag.extent)
    b₁.tree.size name attributes
  have hdirectives := scheduleDirectives_directives (b₁.addNode (.element e) tag.extent)
    b₁.tree.size name attributes
  have hnotOpen : b₁.tree.size ∉ b₁.opened := fun hmem => Nat.lt_irrefl _ (hchecked.there _ hmem)
  have hmarks := Marks.scheduleDirectives (b := b₁.addNode (.element e) tag.extent) name
    hgrown.marks hnotOpen hpre
  generalize (b₁.addNode (.element e) tag.extent).scheduleDirectives b₁.tree.size name attributes =
    b₃ at hopened htree hdirectives hmarks
  change b₃.opened = b₁.opened at hopened
  change b₃.tree = b₁.tree.append b₁.current (.element e) tag.extent at htree
  change b₃.directives = b₁.directives ++
    ((if b₁.verbatim.isSome then [] else directiveIndices name attributes).map
      fun i => (b₁.tree.size, i)) at hdirectives
  change Marks _ (_ :: b₁.opened) _ ∧ _ = b₁.verbatim at hmarks
  simp only [← htree, ← hdirectives] at hgrown hsize hplace hmarks
  split
  · refine closeElement (b := b₃) ?_
    rw [hmarks.2, hopened]
    exact { hgrown with }
  · refine setLexer (b := { b₃ with opened := b₁.tree.size :: b₃.opened }) ?_ _
    rw [hopened]
    exact { hgrown with
      there := List.forall_mem_cons.2 ⟨by show _ < b₃.tree.size; omega, hgrown.there⟩
      chain := ⟨hplace, hgrown.chain⟩
      marks := hmarks.1 }

/-- Whatever unit is taken, `v-pre` is honoured behind it, if no mustache comes where interpolation is
off. -/
theorem Honours.onUnit (h : b.Honours) {u : MarkupUnit} (hu : ∀ m, u = .mustache m → b.verbatim = none) :
    (b.onUnit u).Honours := by
  have hlogged : (if b.lexer.tracing then b.logged (.pulled b.opened.length u.extent.span)
      else b).Honours ∧ (if b.lexer.tracing then b.logged (.pulled b.opened.length u.extent.span)
      else b).verbatim = b.verbatim := by
    split
    · exact ⟨h.setLexer _, rfl⟩
    · exact ⟨h, rfl⟩
  unfold Builder.onUnit
  dsimp only
  generalize (if b.lexer.tracing then b.logged (.pulled b.opened.length u.extent.span) else b) =
    b₀ at hlogged
  obtain ⟨h₀, hverbatim⟩ := hlogged
  cases u with
  | startTag tag => exact h₀.onStartTag tag
  | endTag tag => exact h₀.onEndTag tag
  | text run => exact h₀.addLeaf (.text run.value) run.extent (fun c hc => absurd hc nofun) nofun
  | mustache m =>
    have hadded := h₀.addLeaf (.mustache ⟨none, #[], m.extent⟩) m.extent
      (fun _ _ => hverbatim.trans (hu m rfl)) nofun
    exact { hadded with }

/-! ## Tokens -/

variable {cs : List Char} {l : Locator} {taken ts : List Token} {t : Token} {x : Lexer}
  {us : List MarkupUnit}

/-- Among units that are complete, a mustache comes where interpolation is on, and stays on. -/
def Allows (b : Builder) (us : List MarkupUnit) : Prop :=
  ∀ m, .mustache m ∈ us → b.verbatim = none ∧ ∀ tag, .startTag tag ∉ us

theorem closeInnermost_verbatim (hv : b.verbatim = none) (count : Nat) :
    (b.closeInnermost count).verbatim = none := by
  induction count generalizing b with
  | zero => exact hv
  | succ count ih =>
    cases ho : b.opened with
    | nil => rwa [closeInnermost_nil ho]
    | cons id outer =>
      rw [closeInnermost_cons ho]
      refine ih ?_
      rw [(closeElement_eq _ _).2.2]
      split
      · rfl
      · exact hv

/-- Only a start tag turns interpolation off. -/
theorem onUnit_verbatim {u : MarkupUnit} (hu : ∀ tag, u ≠ .startTag tag) (hv : b.verbatim = none) :
    (b.onUnit u).verbatim = none := by
  have hlogged : (if b.lexer.tracing then b.logged (.pulled b.opened.length u.extent.span)
      else b).verbatim = none := by
    split <;> exact hv
  unfold Builder.onUnit
  dsimp only
  generalize (if b.lexer.tracing then b.logged (.pulled b.opened.length u.extent.span) else b) =
    b₀ at hlogged
  cases u with
  | startTag tag => exact absurd rfl (hu tag)
  | endTag tag =>
    show (b₀.onEndTag tag).verbatim = none
    unfold Builder.onEndTag
    split
    · exact closeInnermost_verbatim (by exact hlogged) _
    · exact hlogged
  | text run | mustache m => exact hlogged

theorem onUnits_verbatim (hus : ∀ tag, .startTag tag ∉ us) (hv : b.verbatim = none) :
    (us.foldl Builder.onUnit b).verbatim = none := by
  induction us generalizing b with
  | nil => exact hv
  | cons u us ih =>
    refine ih (fun tag htag => hus tag (List.mem_cons_of_mem u htag)) (onUnit_verbatim ?_ hv)
    rintro tag rfl
    exact hus tag (List.mem_cons_self ..)

theorem Honours.onUnits (h : b.Honours) (hus : b.Allows us) :
    (us.foldl Builder.onUnit b).Honours := by
  induction us generalizing b with
  | nil => exact h
  | cons u us ih =>
    refine ih (h.onUnit ?_) fun m hm => ?_
    · rintro m rfl
      exact (hus m (List.mem_cons_self ..)).1
    · obtain ⟨hv, hno⟩ := hus m (List.mem_cons_of_mem u hm)
      refine ⟨onUnit_verbatim ?_ hv, fun tag htag => hno tag (List.mem_cons_of_mem u htag)⟩
      rintro tag rfl
      exact hno tag (List.mem_cons_self ..)

theorem Allows.take (h : b.Allows us) (count : Nat) : b.Allows (us.take count) := by
  intro m hm
  obtain ⟨hv, hno⟩ := h m (List.mem_of_mem_take hm)
  exact ⟨hv, fun tag htag => hno tag (List.mem_of_mem_take htag)⟩

/-- The lexer and the assembler are outside of double braces. -/
structure OutsideBraces (b : Builder) : Prop where
  state : b.lexer.returnState.inBraces b.lexer.state = false
  kinds : b.lexer.buffer.Kinds fun k => k ≠ .interpolationStart
  assembler : b.assembler.NoMustache

/-- What holds between two tokens. -/
structure KeepsPre (b : Builder) : Prop where
  honours : b.Honours
  outside : b.verbatim.isSome = true → b.OutsideBraces

/-- A unit leaves the lexer outside of double braces. -/
theorem onUnits_inBraces (hx : b.lexer.returnState.inBraces b.lexer.state = false)
    (us : List MarkupUnit) : (us.foldl Builder.onUnit b).lexer.returnState.inBraces
      (us.foldl Builder.onUnit b).lexer.state = false := by
  induction us generalizing b with
  | nil => exact hx
  | cons u us ih =>
    refine ih ?_
    have hsteered := (onUnit_steered (.refl b.lexer) u).1
    generalize (b.onUnit u).lexer = y at hsteered
    cases hsteered with
    | told hy =>
      obtain ⟨ns, interpolating, log, rfl⟩ := hy
      exact hx
    | entered hy hs =>
      rw [Lexer.enter_eq]
      rcases hs with rfl | rfl <;> rfl

/-- A start tag is the only unit that its token completes, and nothing else is under way then. -/
theorem behind_startTag (hr : Runs cs l taken b) (hpull : b.lexer.pull = (some t, x))
    {tag : StartTag} (htag : .startTag tag ∈ (b.assembler.process t).output.toList) :
    (b.assembler.process t).output.toList = [.startTag tag] ∧
      (b.inFront x (b.assembler.process t)).OutsideBraces := by
  cases hr.next with
  | ended hpull' _ _ _ => exact absurd (hpull.symm.trans hpull') (by simp)
  | token hpull' hx hloc hruns hlt hc =>
    obtain ⟨ht, rfl⟩ := Prod.mk.inj (hpull.symm.trans hpull')
    obtain rfl := Option.some.inj ht
    obtain ⟨_, _, _, _, -, -, -, hunits, -⟩ := hr.process hx hloc
    have hk := hunits.closed tag htag
    obtain ⟨hready, hfinished, hbehind, -⟩ := hc hk
    obtain ⟨u, hunit, hidle⟩ := hr.process_idle hx hloc hk
    obtain ⟨-, hbuilds⟩ := hbehind.builds hx hfinished
    refine ⟨?_, ?_, .of_empty hbehind.idle hbuilds.notHeld hready, hidle.opening,
      fun m hm => absurd hm (Array.not_mem_empty _)⟩
    · rw [hunit] at htag ⊢
      rw [List.mem_singleton.1 htag]
    · show x.returnState.inBraces x.state = false
      rw [hbehind.state]
      rfl

/-- Where interpolation is off, a token completes no mustache. -/
theorem KeepsPre.outside_process (h : b.KeepsPre) (hmode : b.KeepsMode taken)
    (hpull : b.lexer.pull = (some t, x)) (hv : b.verbatim.isSome = true) :
    (b.assembler.process t).NoMustache ∧ (b.inFront x (b.assembler.process t)).OutsideBraces := by
  obtain ⟨hstate, hkinds, hassembler⟩ := h.outside hv
  have hoff : b.lexer.interpolating = false := by
    rw [hmode.steers.off.told]
    obtain ⟨v, hv⟩ := Option.isSome_iff_exists.1 hv
    rw [hv]
    rfl
  have hquiet := Lexer.pull_quiet ⟨hoff, hstate⟩ hmode.returns hkinds
  rw [hpull] at hquiet
  have hprocess := hassembler.process (hquiet.token t rfl)
  exact ⟨hprocess, hquiet.outside, hquiet.kinds, hprocess.opening,
    fun m hm => absurd hm (Array.not_mem_empty _)⟩

/-- The units that a token completes bring no mustache where interpolation is off. -/
theorem KeepsPre.allows_process (h : b.KeepsPre) (hmode : b.KeepsMode taken) (hr : Runs cs l taken b)
    (hpull : b.lexer.pull = (some t, x)) :
    (b.inFront x (b.assembler.process t)).Allows (b.assembler.process t).output.toList := by
  intro m hm
  cases hv : b.verbatim with
  | some v =>
    obtain ⟨hnone, -⟩ := h.outside_process hmode hpull (by rw [hv]; rfl)
    exact absurd (Array.mem_toList_iff.1 hm) (hnone.output m)
  | none =>
    refine ⟨hv, fun tag htag => ?_⟩
    have hone := (behind_startTag hr hpull htag).1
    rw [hone] at hm
    exact absurd (List.mem_singleton.1 hm) nofun

/-- The end of the text completes none at all. -/
theorem allows_commit (hr : Runs cs l taken b) (x : Lexer) :
    (b.inFront x b.assembler.commit).Allows b.assembler.commit.output.toList := by
  intro m hm
  have hflushed : b.assembler.flushInterpolation.NoMustache :=
    .flushInterpolation (by simp [hr.output])
  exact absurd (Array.mem_toList_iff.1 hm) (hflushed.emitCurrent.output m)

/-- Between two tokens `v-pre` is honoured. -/
theorem KeepsPre.take (h : b.KeepsPre) (hmode : b.KeepsMode taken) (hr : Runs cs l taken b)
    (hpull : b.lexer.pull = (some t, x)) : (b.take t x).KeepsPre := by
  have htake : b.take t x = (b.assembler.process t).output.toList.foldl Builder.onUnit
      (b.inFront x (b.assembler.process t)) := by
    simp only [Builder.take, Builder.drain, Assembler.takeOutput, ← Array.foldl_toList,
      Builder.inFront]
  have hfront : (b.inFront x (b.assembler.process t)).Honours := { h.honours with }
  have hallows := h.allows_process hmode hr hpull
  obtain ⟨hasm, hbuffer, -, -⟩ :=
    onUnits_leave (b.inFront x (b.assembler.process t)) (b.assembler.process t).output.toList
  rw [htake]
  refine ⟨hfront.onUnits hallows, fun hsome => ?_⟩
  have houtside : (b.inFront x (b.assembler.process t)).OutsideBraces := by
    cases hv : b.verbatim with
    | some v => exact (h.outside_process hmode hpull (by rw [hv]; rfl)).2
    | none =>
      -- a start tag has turned interpolation off
      have hstart : ∃ tag, .startTag tag ∈ (b.assembler.process t).output.toList := by
        by_contra hno
        have hnone := onUnits_verbatim (b := b.inFront x (b.assembler.process t))
          (fun tag htag => hno ⟨tag, htag⟩) hv
        rw [hnone] at hsome
        exact absurd hsome Bool.false_ne_true
      obtain ⟨tag, htag⟩ := hstart
      exact (behind_startTag hr hpull htag).2
  exact ⟨onUnits_inBraces houtside.state _, hbuffer ▸ houtside.kinds, hasm ▸ houtside.assembler⟩

theorem honours_ofChars (cs : List Char) (locator : Locator) (tracing : Bool) :
    (ofChars cs locator tracing).Honours where
  size := by simp [ofChars, Tree.ofRoot, Tree.size]
  root := ⟨rfl, rfl⟩
  parents d p hp := by
    obtain ⟨n, hn, hnp⟩ := Option.bind_eq_some_iff.1 hp
    rw [(Tree.node?_ofRoot hn).2] at hnp
    cases hnp
  there := by simp [ofChars]
  chain := trivial
  marks := by simp [ofChars, Marks]
  directives id i := by
    refine ⟨fun h => by simp [ofChars] at h, ?_⟩
    rintro ⟨⟨e, x, he, -⟩, -⟩
    obtain ⟨n, hn, hne⟩ := Option.bind_eq_some_iff.1 he
    rw [(Tree.node?_ofRoot hn).2] at hne
    cases hne
  mustaches id := by
    rintro ⟨n, c, hn, hc⟩
    rw [(Tree.node?_ofRoot hn).2] at hc
    cases hc

theorem Takes.keepsPre (h : Takes b ts b') (hr : Runs cs l taken b) (hmode : b.KeepsMode taken)
    (hb : b.KeepsPre) : b'.KeepsPre := by
  induction h with
  | nothing => exact hb
  | token h hpull ih => exact ih.take (h.keepsMode hr hmode) (h.runs hr) hpull

end Builder

/-! ## Templates -/

namespace Template

variable {text : String} {o : Options} {b : Builder}

theorem takes_keepsPre {ts : List Token} (h : (startOf text o).Takes ts b) : b.KeepsPre :=
  h.keepsPre (runs_startOf text o) (Builder.keepsMode_ofChars _ _ _)
    ⟨Builder.honours_ofChars _ _ _, fun hv => absurd hv Bool.false_ne_true⟩

/-- Whenever a unit is about to be taken, `v-pre` is honoured. -/
theorem Pulling.honours (h : Pulling text o b) : b.Honours := by
  cases h with
  | between h => exact (takes_keepsPre h).honours
  | token h hpull count =>
    have hpre := takes_keepsPre h
    have hmode := h.keepsMode (runs_startOf text o) (Builder.keepsMode_ofChars _ _ _)
    have hallows := hpre.allows_process hmode (h.runs (runs_startOf text o)) hpull
    exact Builder.Honours.onUnits { hpre.honours with } (hallows.take count)
  | @ended ts b x h hpull count =>
    have hallows := Builder.allows_commit (h.runs (runs_startOf text o)) x
    exact Builder.Honours.onUnits { (takes_keepsPre h).honours with } (hallows.take count)

variable (text o)

/-- So it is in the outline. -/
theorem builderOf_honours : (builderOf text o).Honours := by
  obtain ⟨ts, b, x, h⟩ := exists_takesAll text o
  have hfront : (b.inFront x b.assembler.commit).Honours := { (takes_keepsPre h.takes).honours with }
  have hend := hfront.onUnits (Builder.allows_commit h.runs x)
  have hatEnd : b.atEnd x = b.assembler.commit.output.toList.foldl Builder.onUnit
      (b.inFront x b.assembler.commit) := by
    simp only [Builder.atEnd, Builder.drain, Assembler.takeOutput, ← Array.foldl_toList,
      Builder.inFront]
  rw [h.builderOf, hatEnd]
  generalize b.assembler.commit.output.toList.foldl Builder.onUnit _ = c at hend
  have hclosed : c.closeAll.Honours := hend.closeInnermost _
  have hcore : ∀ j, c.closeAll.placeRoot.tree.core? j = c.closeAll.tree.core? j := fun j =>
    Tree.core?_modify fun n => rfl
  exact { hclosed.retree hcore with }

end Template
end TemplateSyntax
