import TemplateSyntax.Proofs.OriginMove

/-! # Locations agree with offsets

The extents of a template: those of its tokens and comments, of its nodes, and of everything in the
tags of its elements.  Both ends of each of them are spots of the template, so that the positions by an
extent are those of the ends of its span, however often the extent was copied, extended or cut. -/

namespace TemplateSyntax

open Spotted (spots)

variable {e : Extent}

/-! ## Collections -/

namespace Spotted

variable {α : Type} [Spotted α] {x : α}

theorem subset_list {xs : List α} (h : x ∈ xs) : spots x ⊆ spots xs := fun _ hs =>
  List.mem_flatMap.2 ⟨x, h, hs⟩

theorem subset_array {xs : Array α} (h : x ∈ xs.toList) : spots x ⊆ spots xs :=
  subset_list h

theorem subset_option {o : Option α} (h : x ∈ o.toList) : spots x ⊆ spots o := by
  obtain rfl : o = some x := by simpa using h
  exact List.Subset.refl _

end Spotted

open Spotted

/-! ## The extents of parts -/

namespace PlainAttribute

/-- The extents of an attribute: its name, its value, and all of it. -/
def extents (a : PlainAttribute) : List Extent :=
  a.key.extent :: a.extent :: a.value.toList.map Literal.extent

theorem spots_subset {a : PlainAttribute} (h : e ∈ a.extents) : spots e ⊆ spots a := by
  have hparts : spots a = spots a.key ++ spots a.value ++ spots a.extent := rfl
  rw [hparts]
  simp only [extents, List.mem_cons, List.mem_map] at h
  rcases h with rfl | rfl | ⟨v, hv, rfl⟩
  · exact fun s hs => List.mem_append_left _ (List.mem_append_left _ hs)
  · exact List.subset_append_right _ _
  · exact fun s hs => List.mem_append_left _ (List.mem_append_right _ (subset_option hv hs))

end PlainAttribute

/-- The extent of an argument, be it a name or an expression. -/
def DirectiveArgument.extent : DirectiveArgument → Extent
  | .fixed name => name.extent
  | .dynamic c => c.extent

theorem Container.spots_subset (c : Container) : spots c.extent ⊆ spots c :=
  List.subset_append_right _ _

theorem DirectiveArgument.spots_subset (x : DirectiveArgument) : spots x.extent ⊆ spots x := by
  cases x with
  | fixed name => exact List.Subset.refl _
  | dynamic c => exact c.spots_subset

namespace DirectiveKey

/-- The extents of a key: its name, its argument, its modifiers, and all of it. -/
def extents (k : DirectiveKey) : List Extent :=
  k.name.extent :: k.extent ::
    (k.argument.toList.map DirectiveArgument.extent ++ k.modifiers.map Identifier.extent)

theorem spots_subset {k : DirectiveKey} (h : e ∈ k.extents) : spots e ⊆ spots k := by
  have hparts : spots k =
      spots k.name ++ spots k.argument ++ spots k.modifiers ++ spots k.extent := rfl
  rw [hparts]
  simp only [extents, List.mem_cons, List.mem_append, List.mem_map] at h
  rcases h with rfl | rfl | ⟨x, hx, rfl⟩ | ⟨x, hx, rfl⟩
  · exact fun s hs => List.mem_append_left _ (List.mem_append_left _ (List.mem_append_left _ hs))
  · exact List.subset_append_right _ _
  · exact fun s hs => List.mem_append_left _ (List.mem_append_left _
      (List.mem_append_right _ (subset_option hx (x.spots_subset hs))))
  · exact fun s hs => List.mem_append_left _ (List.mem_append_right _ (subset_list hx hs))

end DirectiveKey

namespace Directive

/-- The extents of a directive: those of its key, its value, and all of it. -/
def extents (d : Directive) : List Extent :=
  d.extent :: (d.key.extents ++ d.value.toList.map Container.extent)

theorem spots_subset {d : Directive} (h : e ∈ d.extents) : spots e ⊆ spots d := by
  have hparts : spots d = spots d.key ++ spots d.value ++ spots d.extent := rfl
  rw [hparts]
  simp only [extents, List.mem_cons, List.mem_append, List.mem_map] at h
  rcases h with rfl | h | ⟨c, hc, rfl⟩
  · exact List.subset_append_right _ _
  · exact fun s hs => List.mem_append_left _ (List.mem_append_left _ (d.key.spots_subset h hs))
  · exact fun s hs => List.mem_append_left _
      (List.mem_append_right _ (subset_option hc (c.spots_subset hs)))

end Directive

namespace Attribute

/-- The extents of an attribute, be it a directive or not. -/
def extents : Attribute → List Extent
  | plain a => a.extents
  | directive d => d.extents

theorem spots_subset {a : Attribute} (h : e ∈ a.extents) : spots e ⊆ spots a := by
  cases a with
  | plain a => exact a.spots_subset h
  | directive d => exact d.spots_subset h

end Attribute

namespace Element

/-- The extents of the tags of an element and of the attributes in them. -/
def extents (x : Element) : List Extent :=
  x.startTag :: (x.endTag.toList ++ x.attributes.toList.flatMap Attribute.extents)

theorem spots_subset {x : Element} (h : e ∈ x.extents) : spots e ⊆ spots x := by
  have hparts : spots x =
      spots x.attributes ++ spots x.startTag ++ spots x.endTag ++ spots x.bindings := rfl
  rw [hparts]
  simp only [extents, List.mem_cons, List.mem_append, List.mem_flatMap] at h
  rcases h with rfl | h | ⟨a, ha, h⟩
  · exact fun s hs => List.mem_append_left _ (List.mem_append_left _ (List.mem_append_right _ hs))
  · exact fun s hs => List.mem_append_left _ (List.mem_append_right _ (subset_option h hs))
  · exact fun s hs => List.mem_append_left _ (List.mem_append_left _
      (List.mem_append_left _ (subset_array ha (a.spots_subset h hs))))

end Element

namespace Node

/-- The extents of a node: its own, and those of its tags or of its expression. -/
def extents (n : Node) : List Extent :=
  n.extent ::
    match n.content with
    | .element x => x.extents
    | .mustache c => [c.extent]
    | _ => []

theorem spots_subset {n : Node} (h : e ∈ n.extents) : spots e ⊆ spots n := by
  have hparts : spots n = spots n.content ++ spots n.extent := rfl
  rw [hparts]
  rcases List.mem_cons.1 h with rfl | h
  · exact List.subset_append_right _ _
  · refine List.Subset.trans ?_ (List.subset_append_left _ _)
    obtain ⟨content, parent, extent⟩ := n
    cases content with
    | element x => exact x.spots_subset h
    | mustache c =>
      obtain rfl := List.mem_singleton.1 h
      exact c.spots_subset
    | root children | text value => exact absurd h List.not_mem_nil

end Node

namespace Template

/-- The extents of all nodes, tokens and comments of a template. -/
def extents (t : Template) : List Extent :=
  t.tree.nodes.toList.flatMap Node.extents ++ t.tokens.toList.map Token.extent ++
    t.comments.toList.map Token.extent

theorem spots_subset {t : Template} (h : e ∈ t.extents) : Spotted.spots e ⊆ t.spots := by
  simp only [extents, List.mem_append, List.mem_flatMap, List.mem_map] at h
  rcases h with (⟨n, hn, h⟩ | ⟨x, hx, rfl⟩) | ⟨x, hx, rfl⟩
  · exact fun s hs => List.mem_append_left _ (List.mem_append_left _
      (List.mem_append_left _ (subset_array hn (n.spots_subset h hs))))
  · exact fun s hs => List.mem_append_left _ (List.mem_append_left _
      (List.mem_append_right _ (subset_array hx hs)))
  · exact fun s hs => List.mem_append_left _ (List.mem_append_right _ (subset_array hx hs))

variable (text : String) (o : Options) {reader : Script.Reader}

/-- The positions by each extent of a template are those of the ends of its span, and the position of
each diagnostic is that of its offset. -/
theorem parse_locationsAgree :
    (∀ e ∈ (parse text o reader).extents, e.loc = (locatorOf text o).location e.span) ∧
    ∀ d ∈ (parse text o reader).diagnostics, d.position = (locatorOf text o).position d.offset := by
  constructor
  · intro e he
    have hsubset := spots_subset he
    have hstart : e.loc.start = (locatorOf text o).position e.span.start :=
      spots_exact text o (hsubset (List.mem_cons_self ..)) rfl
    have hstop : e.loc.stop = (locatorOf text o).position e.span.stop :=
      spots_exact text o (hsubset (List.mem_cons_of_mem _ (List.mem_cons_self ..))) rfl
    obtain ⟨span, start, stop⟩ := e
    exact congrArg₂ Location.mk hstart hstop
  · intro d hd
    have hspot : ⟨d.offset, some d.position⟩ ∈ (parse text o reader).spots :=
      List.mem_append_right _ (subset_array (Array.mem_toList_iff.2 hd) (List.mem_singleton.2 rfl))
    exact spots_exact text o hspot rfl

end Template
end TemplateSyntax
