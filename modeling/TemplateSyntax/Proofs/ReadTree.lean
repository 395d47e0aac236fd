import TemplateSyntax.Proofs.DocumentOrder
import TemplateSyntax.Proofs.ParseStages
import TemplateSyntax.Proofs.References

/-! # The tree that is read

What the passes behind the outline make of each attribute, each mustache and the variables of each
element, and what they put into the log: an attribute on record becomes the directive that is read from
it, at its place and once, and a mustache gets its expression. -/

namespace TemplateSyntax

namespace Tree

variable {t t' : Tree} {id i : Nat}

/-- The variables of an element. -/
def bindings? (t : Tree) (id : Nat) : Option (Array Variable) :=
  (t.element? id).map Element.bindings

/-- The name of the type of a node. -/
def typeName? (t : Tree) (id : Nat) : Option String := (t.node? id).map Node.typeName

theorem typeName?_modify {f : Node → Node}
    (h : ∀ n, t.node? id = some n → (f n).typeName = n.typeName) (j : Nat) :
    (t.modify id f).typeName? j = t.typeName? j :=
  map_node?_modify _ h

end Tree

/-! ## Directives -/

/-- The directive that is read from an attribute, if it is none yet. -/
def Reading.ofAttribute? (r : Reading) : Option Attribute → Option ReadDirective
  | some (.plain a) => some (r.directive a)
  | _ => none

namespace Template.Progress

variable {r : Reading} {p : Progress} {ds : List (Nat × Nat)} {id i : Nat}

/-- The steps of reading one directive, seen from the tree. -/
theorem readDirective_cases (r : Reading) (p : Progress) (d : Nat × Nat) :
    (∃ y, r.ofAttribute? (p.tree.attribute? d.1 d.2) = some y ∧
      (p.readDirective r d).log = p.log ++ y.log ∧
      (p.readDirective r d).tree = p.tree.modifyElement d.1 fun e =>
        { e with
          attributes := e.attributes.set! d.2 (.directive y.directive)
          bindings := e.bindings ++ y.bindings }) ∨
    (r.ofAttribute? (p.tree.attribute? d.1 d.2) = none ∧
      (p.readDirective r d).log = p.log ∧ (p.readDirective r d).tree = p.tree) := by
  by_cases h : ∃ x, p.tree.attribute? d.1 d.2 = some (.plain x)
  · obtain ⟨x, hx⟩ := h
    obtain ⟨e, he, hget⟩ := Option.bind_eq_some_iff.1 hx
    rw [readDirective_eq r p he hget]
    exact .inl ⟨r.directive x, by rw [hx]; rfl, rfl, rfl⟩
  · have hne : ∀ x, ((p.tree.element? d.1).bind fun e => e.attributes[d.2]?) ≠ some (.plain x) :=
      fun x hx => h ⟨x, hx⟩
    rw [readDirective_of_ne r p hne]
    refine .inr ⟨?_, rfl, rfl⟩
    unfold Reading.ofAttribute?
    split
    · next a ha => exact absurd ha (hne a)
    · rfl

theorem readDirective_attribute? (r : Reading) (p : Progress) (d : Nat × Nat) (id i : Nat) :
    (p.readDirective r d).tree.attribute? id i =
      if d = (id, i) then
        ((r.ofAttribute? (p.tree.attribute? id i)).map fun y => .directive y.directive).or
          (p.tree.attribute? id i)
      else p.tree.attribute? id i := by
  rcases readDirective_cases r p d with ⟨y, hy, -, htree⟩ | ⟨hnone, -, htree⟩
  · rw [htree, Tree.attribute?, Tree.element?_modifyElement]
    by_cases hid : d.1 = id
    · subst hid
      by_cases hi : d.2 = i
      · subst hi
        rw [if_pos rfl, if_pos rfl, hy, Option.map_some, Option.some_or]
        cases ha : p.tree.attribute? d.1 d.2 with
        | none =>
          rw [ha] at hy
          cases hy
        | some x =>
          obtain ⟨e, he, hx⟩ := Option.bind_eq_some_iff.1 ha
          have hlt := (Array.getElem?_eq_some_iff.1 hx).1
          rw [he, Option.map_some, Option.bind_some, Array.set!_eq_setIfInBounds,
            Array.getElem?_setIfInBounds_self_of_lt hlt]
      · have hne : d ≠ (d.1, i) := fun heq => hi (Prod.mk.inj heq).2
        rw [if_pos rfl, if_neg hne, Tree.attribute?]
        cases p.tree.element? d.1 with
        | none => rfl
        | some e =>
          rw [Option.map_some, Option.bind_some, Option.bind_some, Array.set!_eq_setIfInBounds,
            Array.getElem?_setIfInBounds_ne hi]
    · have hne : d ≠ (id, i) := by
        rintro rfl
        exact hid rfl
      rw [if_neg hid, if_neg hne]
      rfl
  · rw [htree]
    split
    · next heq =>
      subst heq
      rw [hnone, Option.map_none, Option.none_or]
    · rfl

/-- Each attribute on record becomes the directive that is read from it. -/
theorem readDirectives_attribute? (r : Reading) (ds : List (Nat × Nat)) (p : Progress) (id i : Nat) :
    (ds.foldl (readDirective r) p).tree.attribute? id i =
      if (id, i) ∈ ds then
        ((r.ofAttribute? (p.tree.attribute? id i)).map fun y => .directive y.directive).or
          (p.tree.attribute? id i)
      else p.tree.attribute? id i := by
  induction ds generalizing p with
  | nil => simp
  | cons d ds ih =>
    rw [List.foldl_cons, ih, readDirective_attribute?]
    by_cases hd : d = (id, i)
    · have hmem : (id, i) ∈ d :: ds := hd ▸ List.mem_cons_self ..
      rw [if_pos hd, if_pos hmem]
      cases hy : r.ofAttribute? (p.tree.attribute? id i) with
      | none => simp [hy]
      | some y => simp [Reading.ofAttribute?]
    · rw [if_neg hd]
      have hmem : (id, i) ∈ d :: ds ↔ (id, i) ∈ ds := by
        rw [List.mem_cons, or_iff_right (Ne.symm hd)]
      simp only [hmem]

theorem readDirective_typeName? (r : Reading) (p : Progress) (d : Nat × Nat) (id : Nat) :
    (p.readDirective r d).tree.typeName? id = p.tree.typeName? id := by
  rcases readDirective_cases r p d with ⟨y, -, -, htree⟩ | ⟨-, -, htree⟩
  · rw [htree]
    exact Tree.typeName?_modify (fun n _ => Tree.mapElement_typeName _ n) id
  · rw [htree]

theorem readDirectives_typeName? (r : Reading) (ds : List (Nat × Nat)) (p : Progress) (id : Nat) :
    (ds.foldl (readDirective r) p).tree.typeName? id = p.tree.typeName? id := by
  induction ds generalizing p with
  | nil => rfl
  | cons d ds ih => exact (ih _).trans (readDirective_typeName? r p d id)

theorem readDirective_bindings? (r : Reading) (p : Progress) (d : Nat × Nat) (id : Nat) :
    (p.readDirective r d).tree.bindings? id = (p.tree.bindings? id).map fun vs =>
      vs ++ if d.1 = id then
        ((r.ofAttribute? (p.tree.attribute? d.1 d.2)).map ReadDirective.bindings).getD #[]
      else #[] := by
  rcases readDirective_cases r p d with ⟨y, hy, -, htree⟩ | ⟨hnone, -, htree⟩
  · rw [htree, hy, Tree.bindings?, Tree.element?_modifyElement, Tree.bindings?]
    split
    · next hid =>
      cases p.tree.element? id <;> simp
    · cases p.tree.element? id <;> simp
  · rw [htree, hnone]
    cases p.tree.bindings? id <;> simp

/-- The attributes that are not read stay. -/
theorem readDirective_attribute?_of_ne {d d' : Nat × Nat} (h : d ≠ d') :
    (p.readDirective r d).tree.attribute? d'.1 d'.2 = p.tree.attribute? d'.1 d'.2 := by
  rw [readDirective_attribute?, if_neg h]

/-- The variables of an element are those of its directives on record, in their order. -/
theorem readDirectives_bindings? (hd : ds.Nodup) (id : Nat) :
    ((ds.foldl (readDirective r) p).tree.bindings? id).map Array.toList =
      (p.tree.bindings? id).map fun vs => vs.toList ++ ds.flatMap fun d =>
        if d.1 = id then
          (((r.ofAttribute? (p.tree.attribute? d.1 d.2)).map ReadDirective.bindings).getD #[]).toList
        else [] := by
  induction ds generalizing p with
  | nil => simp
  | cons d ds ih =>
    obtain ⟨hnot, hnodup⟩ := List.nodup_cons.1 hd
    have hrest : ds.flatMap (fun d' => if d'.1 = id then
          (((r.ofAttribute? ((p.readDirective r d).tree.attribute? d'.1 d'.2)).map
            ReadDirective.bindings).getD #[]).toList else []) =
        ds.flatMap fun d' => if d'.1 = id then
          (((r.ofAttribute? (p.tree.attribute? d'.1 d'.2)).map
            ReadDirective.bindings).getD #[]).toList else [] := by
      refine List.flatMap_congr fun d' hd' => ?_
      have hne : d ≠ d' := fun heq => hnot (heq ▸ hd')
      rw [readDirective_attribute?_of_ne hne]
    rw [List.foldl_cons, ih hnodup, readDirective_bindings?, hrest, List.flatMap_cons, Option.map_map]
    cases p.tree.bindings? id with
    | none => rfl
    | some vs =>
      simp only [Option.map_some, Function.comp, Array.toList_append, List.append_assoc]
      split <;> rfl

/-- The log gets the entries of the directives on record, in their order. -/
theorem readDirectives_log (hd : ds.Nodup) :
    (ds.foldl (readDirective r) p).log.toList = p.log.toList ++ ds.flatMap fun d =>
      ((r.ofAttribute? (p.tree.attribute? d.1 d.2)).map ReadDirective.log).getD [] := by
  induction ds generalizing p with
  | nil => simp
  | cons d ds ih =>
    obtain ⟨hnot, hnodup⟩ := List.nodup_cons.1 hd
    have hrest : ds.flatMap (fun d' => ((r.ofAttribute?
          ((p.readDirective r d).tree.attribute? d'.1 d'.2)).map ReadDirective.log).getD []) =
        ds.flatMap fun d' => ((r.ofAttribute?
          (p.tree.attribute? d'.1 d'.2)).map ReadDirective.log).getD [] := by
      refine List.flatMap_congr fun d' hd' => ?_
      have hne : d ≠ d' := fun heq => hnot (heq ▸ hd')
      rw [readDirective_attribute?_of_ne hne]
    rw [List.foldl_cons, ih hnodup, hrest, List.flatMap_cons, ← List.append_assoc]
    congr 1
    rcases readDirective_cases r p d with ⟨y, hy, hlog, -⟩ | ⟨hnone, hlog, -⟩
    · rw [hlog, hy, Array.toList_appendList]
      rfl
    · rw [hlog, hnone, Option.map_none, Option.getD_none, List.append_nil]

/-! ## Mustaches -/

theorem readMustache_typeName? {m : PendingMustache} {ms : List PendingMustache}
    (h : MustachesThere p.tree (m :: ms)) (id : Nat) :
    (p.readMustache r m).tree.typeName? id = p.tree.typeName? id := by
  obtain ⟨n, c, hn, hc⟩ := h m (List.mem_cons_self ..)
  rw [readMustache_eq r p hn]
  refine Tree.typeName?_modify (fun n' hn' => ?_) id
  obtain rfl := Option.some.inj (hn.symm.trans hn')
  simp [Node.typeName, hc]

theorem readMustaches_typeName? {ms : List PendingMustache} (h : MustachesThere p.tree ms) (id : Nat) :
    (ms.foldl (readMustache r) p).tree.typeName? id = p.tree.typeName? id := by
  induction ms generalizing p with
  | nil => rfl
  | cons m ms ih =>
    exact (ih (readMustache_spec (r := r) h).2.1).trans (readMustache_typeName? h id)

end Template.Progress

/-! ## Texts -/

/-- The node is a text. -/
def Node.IsText (n : Node) : Prop := ∃ value, n.content = .text value

namespace Node.IsText

variable {n : Node}

theorem mapElement (h : n.IsText) (f : Element → Element) : n.mapElement f = n := by
  obtain ⟨value, hvalue⟩ := h
  rw [Node.mapElement, hvalue]

theorem mapContainers (h : n.IsText) (f : Option Nat → Container → Container) (id : Nat) :
    n.mapContainers f id = n := by
  obtain ⟨value, hvalue⟩ := h
  rw [Node.mapContainers, hvalue]

end Node.IsText

namespace Template.Progress

variable {r : Reading} {p : Progress} {id : Nat} {n : Node}

theorem readDirectives_text (hn : n.IsText) (ds : List (Nat × Nat)) (h : p.tree.node? id = some n) :
    (ds.foldl (readDirective r) p).tree.node? id = some n := by
  induction ds generalizing p with
  | nil => exact h
  | cons d ds ih =>
    refine ih ?_
    rcases readDirective_cases r p d with ⟨y, -, -, htree⟩ | ⟨-, -, htree⟩
    · rw [htree, Tree.modifyElement, Tree.node?_modify]
      split
      · rw [h, Option.map_some, hn.mapElement]
      · exact h
    · rw [htree, h]

theorem readMustaches_text (hn : n.IsText) {ms : List PendingMustache} (hms : MustachesThere p.tree ms)
    (h : p.tree.node? id = some n) : (ms.foldl (readMustache r) p).tree.node? id = some n := by
  induction ms generalizing p with
  | nil => exact h
  | cons m ms ih =>
    refine ih (readMustache_spec (r := r) hms).2.1 ?_
    obtain ⟨n', c, hn', hc⟩ := hms m (List.mem_cons_self ..)
    rw [readMustache_eq r p hn', Tree.node?_modify, if_neg, h]
    rintro rfl
    obtain rfl := Option.some.inj (h.symm.trans hn')
    obtain ⟨value, hvalue⟩ := hn
    cases hvalue.symm.trans hc

end Template.Progress

/-! ## The whole tree -/

namespace Tree

variable (t : Tree)

/-- What resolving makes of each node. -/
theorem node?_resolve (id : Nat) : t.resolve.node? id = (t.node? id).map fun n =>
    (n.mapContainers t.bind id).mapElement (usedBy t.uses id) := by
  rw [resolve_eq, node?_addUses, node?_bindAll, Option.map_map]
  rfl

theorem mapContainers_typeName (f : Option Nat → Container → Container) (id : Nat) (n : Node) :
    (n.mapContainers f id).typeName = n.typeName := by
  obtain ⟨content, parent, extent⟩ := n
  cases content <;> rfl

theorem typeName?_resolve (id : Nat) : t.resolve.typeName? id = t.typeName? id := by
  rw [typeName?, node?_resolve, Option.map_map, typeName?]
  congr 1
  funext n
  exact (mapElement_typeName _ _).trans (mapContainers_typeName _ _ _)

end Tree

namespace Template

/-- A text stands as it is in the outline. -/
theorem parse_text {text : String} {o : Options} {id : Nat} {n : Node} (reader : Script.Reader)
    (hn : n.IsText) (h : (outlineOf text o).tree.node? id = some n) :
    (parse text o reader).tree.node? id = some n := by
  rw [parse_tree, Tree.node?_resolve]
  have hread : (progressOf text o reader).tree.node? id = some n :=
    Progress.readMustaches_text hn (mustachesThere text o) (Progress.readDirectives_text hn _ h)
  rw [hread, Option.map_some, hn.mapContainers, hn.mapElement]

/-- The types of the nodes are those of the outline. -/
theorem parse_typeName? (text : String) (o : Options) (reader : Script.Reader) (id : Nat) :
    (parse text o reader).tree.typeName? id = (outlineOf text o).tree.typeName? id := by
  rw [parse_tree, Tree.typeName?_resolve]
  exact (Progress.readMustaches_typeName? (mustachesThere text o) id).trans
    (Progress.readDirectives_typeName? _ _ _ id)

/-- The draft behind the outline of a template. -/
theorem outlineOf_numbered (text : String) (o : Options) : (builderOf text o).draft.Numbered :=
  Builder.outline_numbered text.toList (locatorOf text o) o.tracing _

end Template
end TemplateSyntax
