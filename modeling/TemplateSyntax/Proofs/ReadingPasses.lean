import TemplateSyntax.Proofs.Binding
import TemplateSyntax.Proofs.BuilderRun
import TemplateSyntax.Proofs.DirectiveKey
import TemplateSyntax.Template

/-! # The passes behind the outline

Directives and mustaches are read in place, and references are tied to variables: the nodes of the
tree stay where they are and keep their links, their spans and the spans of their tags.  What is read
is there, so that nothing is missed and nothing that was relied on fails. -/

namespace TemplateSyntax

variable {t t' : Tree} {id j : Nat}

/-! ## The shape of a tree -/

namespace Tree

/-- A change of a node that keeps what ranges depend on keeps the shape. -/
theorem SameShape.modify {f : Node → Node} (h : ∀ n, t.node? id = some n →
    (f n).parent = n.parent ∧ (f n).children = n.children ∧ (f n).extent.span = n.extent.span ∧
      (f n).element?.map Element.tagSpans = n.element?.map Element.tagSpans) :
    SameShape t (t.modify id f) where
  size := t.size_modify id f
  parent j := by
    rw [parent?_eq_join, parent?_eq_join, map_node?_modify _ fun n hn => (h n hn).1]
  children j := by
    rw [Tree.children, Tree.children, map_node?_modify _ fun n hn => (h n hn).2.1]
  span j := by
    rw [spanOf, spanOf, map_node?_modify _ fun n hn => (h n hn).2.2.1]
  tags j := by
    rw [tagSpans?_eq_join, tagSpans?_eq_join, map_node?_modify _ fun n hn => (h n hn).2.2.2]

/-- A change of an element that keeps its children and the spans of its tags and attributes. -/
theorem SameShape.modifyElement {f : Element → Element} (h : ∀ e, t.element? id = some e →
    (f e).children = e.children ∧ (f e).tagSpans = e.tagSpans) :
    SameShape t (t.modifyElement id f) := by
  refine .modify fun n hn => ?_
  unfold Node.mapElement
  split
  · next e he =>
    obtain ⟨hc, ht⟩ := h e (by rw [element?_eq hn, Node.element?, he])
    refine ⟨rfl, ?_, rfl, ?_⟩
    · simp [Node.children, he, hc]
    · simp [Node.element?, he, ht]
  · exact ⟨rfl, rfl, rfl, rfl⟩

/-- Tying references to variables keeps the shape. -/
theorem sameShape_addUse (t : Tree) (v : VariableRef) (id : Script.Ident) :
    SameShape t (t.addUse v id) :=
  .modifyElement fun _ _ => ⟨rfl, rfl⟩

theorem sameShape_addUses (t : Tree) (uses : List (VariableRef × Script.Ident)) :
    SameShape t (t.addUses uses) := by
  induction uses generalizing t with
  | nil => exact .refl t
  | cons use uses ih => exact (t.sameShape_addUse use.1 use.2).trans (ih _)

end Tree

section
variable (f : Option Nat → Container → Container) (id : Nat) (n : Node)

theorem Attribute.mapContainers_extent (p : Option Nat) (x : Attribute) :
    (x.mapContainers f id p).extent = x.extent := by
  cases x <;> rfl

theorem Node.mapContainers_parent : (n.mapContainers f id).parent = n.parent := by
  unfold Node.mapContainers
  split <;> rfl

theorem Node.mapContainers_children : (n.mapContainers f id).children = n.children := by
  unfold Node.mapContainers
  split
  · next c hc => simp [Node.children, hc]
  · next e he => simp [Node.children, he]
  · rfl

theorem Node.mapContainers_extent : (n.mapContainers f id).extent = n.extent := by
  unfold Node.mapContainers
  split <;> rfl

theorem Node.mapContainers_element? : (n.mapContainers f id).element? =
    n.element?.map fun e =>
      { e with attributes := e.attributes.map (·.mapContainers f id n.parent) } := by
  unfold Node.mapContainers
  split
  · next c hc => simp [Node.element?, hc]
  · next e he => simp [Node.element?, he]
  · next h1 h2 =>
    unfold Node.element?
    split
    · next e he => exact absurd he (h2 e)
    · rfl

end

namespace Tree

theorem sameShape_bindAll (t : Tree) : SameShape t t.bindAll where
  size := t.size_bindAll
  parent id := by
    rw [parent?_eq_join, parent?_eq_join, node?_bindAll]
    cases t.node? id with
    | none => rfl
    | some n => simp [Node.mapContainers_parent]
  children id := by
    rw [children, children, node?_bindAll]
    cases t.node? id with
    | none => rfl
    | some n => simp [Node.mapContainers_children]
  span id := by
    rw [spanOf, spanOf, node?_bindAll]
    cases t.node? id with
    | none => rfl
    | some n => simp [Node.mapContainers_extent]
  tags id := by
    rw [tagSpans?_eq_join, tagSpans?_eq_join, node?_bindAll]
    cases t.node? id with
    | none => rfl
    | some n =>
      cases he : n.element? with
      | none => simp [Node.mapContainers_element?, he]
      | some e =>
        simp [Node.mapContainers_element?, he, Element.tagSpans, Function.comp_def,
          Attribute.mapContainers_extent]

theorem sameShape_resolve (t : Tree) : SameShape t t.resolve := by
  rw [resolve_eq]
  exact t.sameShape_bindAll.trans (t.bindAll.sameShape_addUses _)

end Tree

/-! ## Directives and mustaches -/

/-- The mustaches that are to be read are there. -/
def MustachesThere (t : Tree) (mustaches : List PendingMustache) : Prop :=
  ∀ m ∈ mustaches, ∃ n c, t.node? m.node = some n ∧ n.content = .mustache c

namespace Template.Progress

variable {r : Reading} {p : Progress}

theorem check_of (p : Progress) {ok : Bool} (h : ok = true) (x : Breach) : p.check ok x = p := by
  subst h
  rfl

/-- Reading a directive puts it where the attribute was. -/
theorem readDirective_eq (r : Reading) (p : Progress) {d : Nat × Nat} {e : Element}
    {x : PlainAttribute} (he : p.tree.element? d.1 = some e)
    (hx : e.attributes[d.2]? = some (.plain x)) :
    p.readDirective r d =
      { tree := p.tree.modifyElement d.1 fun e =>
          { e with
            attributes := e.attributes.set! d.2 (.directive (r.directive x).directive)
            bindings := e.bindings ++ (r.directive x).bindings }
        log := p.log ++ (r.directive x).log
        breaches := (r.directive x).breaches ++ p.breaches } := by
  obtain ⟨n, hn, -⟩ := Option.bind_eq_some_iff.1 he
  unfold readDirective
  dsimp only
  rw [p.check_of (by rw [hn]; rfl), he, Option.bind_some, hx]

/-- Where there is no such attribute, nothing is read. -/
theorem readDirective_of_ne (r : Reading) (p : Progress) {d : Nat × Nat}
    (h : ∀ x, ((p.tree.element? d.1).bind fun e => e.attributes[d.2]?) ≠ some (.plain x)) :
    p.readDirective r d = p.check (p.tree.node? d.1).isSome .noNode := by
  unfold readDirective
  dsimp only
  split
  · next x hx => exact absurd hx (h x)
  · rfl

/-- An attribute and its directive stand in the same place. -/
theorem readDirective_sameShape (r : Reading) (p : Progress) (d : Nat × Nat) :
    p.tree.SameShape (p.readDirective r d).tree := by
  unfold readDirective
  dsimp only
  split
  · next x hx =>
    refine .modifyElement fun e he => ⟨rfl, ?_⟩
    have hget : e.attributes[d.2]? = some (.plain x) := by
      obtain ⟨e', he', hx⟩ := Option.bind_eq_some_iff.1 hx
      obtain rfl := Option.some.inj (he.symm.trans he')
      exact hx
    have hspan : (Attribute.directive (r.directive x).directive).extent.span =
        (Attribute.plain x).extent.span := rfl
    have hspans : (e.attributes.toList.map fun x => x.extent.span)[d.2]? =
        some (Attribute.plain x).extent.span := by
      rw [List.getElem?_map, Array.getElem?_toList, hget, Option.map_some]
    simp only [Element.tagSpans, Array.set!_eq_setIfInBounds, Array.toList_setIfInBounds,
      List.map_set, hspan]
    obtain ⟨hi, hget⟩ := List.getElem?_eq_some_iff.1 hspans
    rw [← hget, List.set_getElem_self hi]
  · exact .refl _

theorem readDirectives_sameShape (r : Reading) (ds : List (Nat × Nat)) (p : Progress) :
    p.tree.SameShape (ds.foldl (readDirective r) p).tree := by
  induction ds generalizing p with
  | nil => exact .refl _
  | cons d ds ih => exact (readDirective_sameShape r p d).trans (ih _)

/-- Mustaches are not touched by the reading of directives. -/
theorem readDirective_mustaches {ms : List PendingMustache} (h : MustachesThere p.tree ms)
    (d : Nat × Nat) : MustachesThere (p.readDirective r d).tree ms := by
  unfold readDirective
  dsimp only
  split
  · intro m hm
    obtain ⟨n, c, hn, hc⟩ := h m hm
    refine ⟨n, c, ?_, hc⟩
    simp only [Tree.modifyElement, Tree.node?_modify]
    split
    · show (p.tree.node? m.node).map _ = some n
      rw [hn, Option.map_some, Node.mapElement]
      simp [hc]
    · exact hn
  · exact h

theorem readDirectives_mustaches {ms : List PendingMustache} (h : MustachesThere p.tree ms)
    (ds : List (Nat × Nat)) : MustachesThere (ds.foldl (readDirective r) p).tree ms := by
  induction ds generalizing p with
  | nil => exact h
  | cons d ds ih => exact ih (readDirective_mustaches h d)

theorem readDirective_noBreach {d : Nat × Nat} (hd : d.1 < p.tree.size) (hb : p.breaches = []) :
    (p.readDirective r d).breaches = [] := by
  unfold readDirective
  dsimp only
  rw [p.check_of (Tree.node?_isSome.2 hd)]
  split
  · next x hx =>
    have hkey : (r.directive x).breaches = [] := KeyParts.ofName_noBreach _
    rw [hkey, hb]
    rfl
  · exact hb

/-- Reading directives of nodes that are there does not fail. -/
theorem readDirectives_noBreach {ds : List (Nat × Nat)} (hd : ∀ d ∈ ds, d.1 < p.tree.size)
    (hb : p.breaches = []) : (ds.foldl (readDirective r) p).breaches = [] := by
  induction ds generalizing p with
  | nil => exact hb
  | cons d ds ih =>
    refine ih (fun d' hd' => ?_) (readDirective_noBreach (hd d (List.mem_cons_self ..)) hb)
    rw [(readDirective_sameShape r p d).size]
    exact hd d' (List.mem_cons_of_mem d hd')

/-- Reading a mustache puts its expression where it stands. -/
theorem readMustache_eq (r : Reading) (p : Progress) {m : PendingMustache} {n : Node}
    (hn : p.tree.node? m.node = some n) :
    p.readMustache r m =
      { p with
        tree := p.tree.modify m.node fun n' =>
          { n' with content := .mustache (r.mustache m.value m.start n.extent).container }
        log := p.log ++ (r.mustache m.value m.start n.extent).faults } := by
  unfold readMustache
  rw [hn]

/-- A mustache has the same place with and without its expression, and other mustaches stay. -/
theorem readMustache_spec {m : PendingMustache} {ms : List PendingMustache}
    (h : MustachesThere p.tree (m :: ms)) :
    p.tree.SameShape (p.readMustache r m).tree ∧ MustachesThere (p.readMustache r m).tree ms ∧
      (p.readMustache r m).breaches = p.breaches := by
  obtain ⟨n, c, hn, hc⟩ := h m (List.mem_cons_self ..)
  rw [readMustache_eq r p hn]
  refine ⟨.modify fun n' hn' => ?_, fun m' hm' => ?_, rfl⟩
  · obtain rfl := Option.some.inj (hn.symm.trans hn')
    simp [Node.children, Node.element?, hc]
  · obtain ⟨n', c', hn', hc'⟩ := h m' (List.mem_cons_of_mem m hm')
    simp only [Tree.node?_modify]
    split
    · exact ⟨_, _, by rw [hn', Option.map_some], rfl⟩
    · exact ⟨n', c', hn', hc'⟩

/-- Mustaches that are there are read without fail. -/
theorem readMustaches_spec {ms : List PendingMustache} (h : MustachesThere p.tree ms) :
    p.tree.SameShape (ms.foldl (readMustache r) p).tree ∧
      (ms.foldl (readMustache r) p).breaches = p.breaches := by
  induction ms generalizing p with
  | nil => exact ⟨.refl _, rfl⟩
  | cons m ms ih =>
    obtain ⟨hshape, hthere, hb⟩ := readMustache_spec (r := r) h
    obtain ⟨hshape', hb'⟩ := ih hthere
    exact ⟨hshape.trans hshape', hb'.trans hb⟩

end Template.Progress

end TemplateSyntax
