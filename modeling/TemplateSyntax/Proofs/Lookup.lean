import TemplateSyntax.Proofs.TreeRanges
import TemplateSyntax.Tree.Resolution

/-! # Looking variables up

What a name means at a node, without the program that looks it up: the variable of that name on the
nearest element of the scope chain that has one, and of several on that element the last.  In a tree
whose nodes belong together the program finds exactly this variable. -/

namespace TemplateSyntax
namespace Tree

variable {t t' : Tree} {name : String} {id : Nat} {v w : VariableRef} {chain : List Nat}

/-- The variable of an element and an index, if there is one. -/
def variableAt? (t : Tree) (v : VariableRef) : Option Variable :=
  (t.element? v.element).bind fun e => e.bindings[v.index]?

/-- There is a variable of this name at this place. -/
def Declares (t : Tree) (name : String) (v : VariableRef) : Prop :=
  ∃ x, t.variableAt? v = some x ∧ x.name = name

/-- The nodes from a scope outward, up to the root. -/
inductive ChainFrom (t : Tree) : Option Nat → List Nat → Prop
  | outside : ChainFrom t none []
  | within {id : Nat} {outer : List Nat} (h : ChainFrom t (t.parent? id) outer) :
      ChainFrom t (some id) (id :: outer)

/-- The variable is the last one of its name on its element, and no element in front of that in the
chain has one. -/
structure Nearest (t : Tree) (chain : List Nat) (name : String) (v : VariableRef) : Prop where
  declares : t.Declares name v
  last : ∀ i, t.Declares name ⟨v.element, i⟩ → i ≤ v.index
  split : ∃ inner outer, chain = inner ++ v.element :: outer ∧
    ∀ id ∈ inner, ∀ i, ¬ t.Declares name ⟨id, i⟩

/-! ## The last variable of a name -/

theorem declares_iff {e : Element} (he : t.element? id = some e) {i : Nat} :
    t.Declares name ⟨id, i⟩ ↔ (e.bindings[i]?.map Variable.name) = some name := by
  rw [Declares, variableAt?, he, Option.bind_some, Option.map_eq_some_iff]

theorem not_declares (he : t.element? id = none) (i : Nat) : ¬ t.Declares name ⟨id, i⟩ := by
  rintro ⟨x, hx, -⟩
  rw [variableAt?, he] at hx
  simp at hx

/-- The search from the end finds the last index. -/
theorem find?_reverse_range_eq_some {p : Nat → Bool} {n i : Nat} :
    (List.range n).reverse.find? p = some i ↔
      i < n ∧ p i = true ∧ ∀ j, j < n → p j = true → j ≤ i := by
  induction n with
  | zero => simp
  | succ n ih =>
    rw [List.range_succ, List.reverse_append, List.reverse_singleton, List.singleton_append,
      List.find?_cons]
    cases hp : p n with
    | true =>
      constructor
      · intro heq
        obtain rfl := Option.some.inj heq
        exact ⟨Nat.lt_succ_self n, hp, fun j hj _ => Nat.le_of_lt_succ hj⟩
      · rintro ⟨hlt, -, hmax⟩
        have hle := hmax n (Nat.lt_succ_self n) hp
        exact congrArg some (by omega)
    | false =>
      rw [ih]
      have hne : ∀ j, p j = true → j ≠ n := by
        rintro j hj rfl
        simp [hp] at hj
      constructor
      · rintro ⟨hlt, hi, hmax⟩
        refine ⟨by omega, hi, fun j hj hpj => hmax j ?_ hpj⟩
        have := hne j hpj
        omega
      · rintro ⟨hlt, hi, hmax⟩
        have := hne i hi
        exact ⟨by omega, hi, fun j hj => hmax j (by omega)⟩

/-- The variable that is looked up on one element is the last one of its name there. -/
theorem variableOf?_eq_some :
    t.variableOf? name id = some v ↔
      v.element = id ∧ t.Declares name v ∧ ∀ i, t.Declares name ⟨id, i⟩ → i ≤ v.index := by
  obtain ⟨element, index⟩ := v
  unfold variableOf?
  cases he : t.element? id with
  | none =>
    simp only [Option.bind_none, Option.map_none, reduceCtorEq, false_iff]
    rintro ⟨rfl, h, -⟩
    exact not_declares he index h
  | some e =>
    have hlt : ∀ i, t.Declares name ⟨id, i⟩ → i < e.bindings.size := by
      intro i hi
      rw [declares_iff he, Option.map_eq_some_iff] at hi
      obtain ⟨x, hx, -⟩ := hi
      exact (Array.getElem?_eq_some_iff.1 hx).1
    have hlast : ∀ i, e.lastVariable? name = some i ↔
        t.Declares name ⟨id, i⟩ ∧ ∀ j, t.Declares name ⟨id, j⟩ → j ≤ i := by
      intro i
      simp only [Element.lastVariable?, find?_reverse_range_eq_some, beq_iff_eq,
        ← declares_iff he]
      exact ⟨fun ⟨_, hi, hmax⟩ => ⟨hi, fun j hj => hmax j (hlt j hj) hj⟩,
        fun ⟨hi, hmax⟩ => ⟨hlt i hi, hi, fun j _ hj => hmax j hj⟩⟩
    rw [Option.bind_some, Option.map_eq_some_iff]
    simp only [hlast, VariableRef.mk.injEq]
    constructor
    · rintro ⟨i, hi, rfl, rfl⟩
      exact ⟨rfl, hi⟩
    · rintro ⟨rfl, hi⟩
      exact ⟨index, hi, rfl, rfl⟩

/-- An element on which nothing is found has no variable of the name. -/
theorem variableOf?_eq_none :
    t.variableOf? name id = none ↔ ∀ i, ¬ t.Declares name ⟨id, i⟩ := by
  unfold variableOf?
  cases he : t.element? id with
  | none => simpa using fun i => not_declares he i
  | some e =>
    rw [Option.bind_some, Option.map_eq_none_iff, Element.lastVariable?, List.find?_eq_none]
    constructor
    · intro h i hi
      have hname := (declares_iff he).1 hi
      obtain ⟨x, hx, -⟩ := Option.map_eq_some_iff.1 hname
      refine h i ?_ (by simpa using hname)
      simpa using (Array.getElem?_eq_some_iff.1 hx).1
    · intro h i _ hi
      exact h i ((declares_iff he).2 (by simpa using hi))

/-! ## The chain -/

/-- Parents stand in front of their children, so that as many steps outward as the index of a node
lead to the root. -/
theorem Linked.chainFrom_outward (h : t.Linked) {fuel : Nat} (hid : id ≤ fuel) :
    t.ChainFrom (t.parent? id) (t.outward fuel id) := by
  induction fuel generalizing id with
  | zero =>
    obtain rfl : id = Tree.root := Nat.le_zero.1 hid
    rw [h.root]
    exact .outside
  | succ fuel ih =>
    rw [outward]
    cases hp : t.parent? id with
    | none => exact .outside
    | some p =>
      have hlt : p < id := by
        obtain ⟨n, hn, -⟩ := Option.bind_eq_some_iff.1 hp
        have hpos : 0 < id := by
          refine Nat.pos_of_ne_zero ?_
          rintro rfl
          rw [show t.parent? 0 = none from h.root] at hp
          simp at hp
        obtain ⟨q, hq, hmem⟩ := h.parent id hpos (lt_size hn)
        obtain rfl := Option.some.inj (hp.symm.trans hq)
        exact (h.child p id hmem).2.1
      exact .within (ih (by omega))

/-- The chain that is looked through is that from the scope up to the root. -/
theorem Linked.chainFrom_scopeChain (h : t.Linked) (scope : Option Nat) :
    t.ChainFrom scope (t.scopeChain scope) := by
  cases scope with
  | none => exact .outside
  | some id =>
    refine .within ?_
    by_cases hid : id < t.size
    · exact h.chainFrom_outward (Nat.le_of_lt hid)
    · have hnone : t.node? id = none := by
        rw [← Option.not_isSome_iff_eq_none, node?_isSome]
        exact hid
      have hparent : t.parent? id = none := by
        rw [parent?, hnone]
        rfl
      have hempty : t.ancestors id = [] := by
        unfold ancestors
        cases t.size with
        | zero => rfl
        | succ n => rw [outward, hparent]
      rw [hparent, hempty]
      exact .outside

/-- A scope leads outward in one way. -/
theorem ChainFrom.unique {scope : Option Nat} {chain chain' : List Nat}
    (h : t.ChainFrom scope chain) (h' : t.ChainFrom scope chain') : chain = chain' := by
  induction h generalizing chain' with
  | outside =>
    cases h'
    rfl
  | within h ih =>
    cases h' with
    | within h' => rw [ih h']

theorem Linked.parent_lt (h : t.Linked) {p : Nat} (hp : t.parent? id = some p) :
    id ≠ Tree.root ∧ p < id ∧ id < t.size := by
  have hid : id ≠ Tree.root := by
    rintro rfl
    exact absurd (h.root.symm.trans hp) nofun
  obtain ⟨n, hn, -⟩ := Option.bind_eq_some_iff.1 hp
  obtain ⟨q, hq, hmem⟩ := h.parent id (Nat.pos_of_ne_zero hid) (lt_size hn)
  obtain rfl := Option.some.inj (hp.symm.trans hq)
  exact ⟨hid, (h.child p id hmem).2.1, lt_size hn⟩

/-! ## The look-up -/

/-- Looking through a chain finds the nearest variable. -/
theorem findSome?_variableOf?_eq_some :
    chain.findSome? (t.variableOf? name) = some v ↔ t.Nearest chain name v := by
  rw [List.findSome?_eq_some_iff]
  constructor
  · rintro ⟨inner, id, outer, rfl, hv, hinner⟩
    obtain ⟨rfl, hd, hmax⟩ := variableOf?_eq_some.1 hv
    exact ⟨hd, hmax, inner, outer, rfl, fun id hid => variableOf?_eq_none.1 (hinner id hid)⟩
  · rintro ⟨hd, hmax, inner, outer, rfl, hinner⟩
    exact ⟨inner, v.element, outer, rfl, variableOf?_eq_some.2 ⟨rfl, hd, hmax⟩,
      fun id hid => variableOf?_eq_none.2 (hinner id hid)⟩

theorem lookup?_eq_some {scope : Option Nat} :
    t.lookup? scope name = some v ↔ t.Nearest (t.scopeChain scope) name v :=
  findSome?_variableOf?_eq_some

theorem lookup?_eq_none {scope : Option Nat} :
    t.lookup? scope name = none ↔
      ∀ id ∈ t.scopeChain scope, ∀ i, ¬ t.Declares name ⟨id, i⟩ := by
  rw [lookup?, List.findSome?_eq_none_iff]
  exact forall₂_congr fun id _ => variableOf?_eq_none

/-! ## What a look-up depends on -/

theorem outward_congr (hp : ∀ j, t'.parent? j = t.parent? j) (fuel id : Nat) :
    t'.outward fuel id = t.outward fuel id := by
  induction fuel generalizing id with
  | zero => rfl
  | succ fuel ih =>
    rw [outward, outward, hp]
    cases t.parent? id with
    | none => rfl
    | some p => simp only [ih]

/-- A look-up depends on the links between the nodes and on the names of variables. -/
theorem lookup?_congr (hs : t'.size = t.size) (hp : ∀ j, t'.parent? j = t.parent? j)
    (hd : ∀ name v, t'.Declares name v ↔ t.Declares name v) (scope : Option Nat) (name : String) :
    t'.lookup? scope name = t.lookup? scope name := by
  have hchain : t'.scopeChain scope = t.scopeChain scope := by
    unfold scopeChain ancestors
    simp only [hs, outward_congr hp]
  have hvar : t'.variableOf? name = t.variableOf? name := by
    funext id
    refine Option.ext fun v => ?_
    rw [variableOf?_eq_some, variableOf?_eq_some]
    simp only [hd]
  rw [lookup?, lookup?, hchain, hvar]

end Tree
end TemplateSyntax
