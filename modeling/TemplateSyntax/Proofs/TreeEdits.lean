import TemplateSyntax.Proofs.BuilderSteps

/-! # Edits of a tree

The tree builder changes its tree in five ways only: it gives a node its place, gives an element its
end tag, and adds an element, a text or a mustache.  What all of these keep holds of every tree that
it builds, whatever the markup. -/

namespace TemplateSyntax
namespace Tree

variable {t t' : Tree} {id : Nat}

/-- A change that the builder makes to a tree. -/
inductive Edit (t : Tree) : Tree → Prop
  | place (id : Nat) (f : Node → Extent) : Edit t (t.modify id fun n => { n with extent := f n })
  | endTag (id : Nat) (tag : Extent) :
      Edit t (t.modifyElement id fun e => { e with endTag := some tag })
  | element (p : Nat) {e : Element} (extent : Extent) (hc : e.children = #[])
      (hb : e.bindings = #[]) : Edit t (t.append p (.element e) extent)
  | text (p : Nat) (value : String) (extent : Extent) : Edit t (t.append p (.text value) extent)
  | mustache (p : Nat) (place extent : Extent) :
      Edit t (t.append p (.mustache ⟨none, #[], place⟩) extent)

/-- Any number of changes. -/
def Edits : Tree → Tree → Prop := Relation.ReflTransGen Edit

theorem Edits.refl (t : Tree) : Edits t t := Relation.ReflTransGen.refl

theorem Edits.trans {t'' : Tree} (h : Edits t t') (h' : Edits t' t'') : Edits t t'' :=
  Relation.ReflTransGen.trans h h'

theorem Edits.step {t'' : Tree} (h : Edits t t') (h' : Edit t' t'') : Edits t t'' :=
  Relation.ReflTransGen.tail h h'

end Tree

/-- The node is an element that declares no variables, a mustache that was not read, or something
else. -/
structure Node.Unread (n : Node) : Prop where
  bindings : ∀ e, n.content = .element e → e.bindings = #[]
  mustache : ∀ c, n.content = .mustache c → c.expression = none ∧ c.references = #[]

namespace Tree

variable {t t' : Tree}

/-- None of the elements declares a variable, and no mustache was read. -/
def Unread (t : Tree) : Prop := ∀ id n, t.node? id = some n → n.Unread

theorem Unread.append (h : t.Unread) {content : NodeContent} {p : Nat} {extent : Extent}
    (hc : Node.Unread ⟨content, some p, extent⟩) : (t.append p content extent).Unread := by
  intro j n hn
  by_cases hj : j = t.size
  · subst hj
    obtain rfl := Option.some.inj ((node?_append_self ..).symm.trans hn)
    exact hc
  · refine forall_modify (f := fun n => n.addChild t.size) h (fun n _ hn => ?_) j n
      ((node?_append hj).symm.trans hn)
    obtain ⟨content, parent, extent⟩ := n
    cases content with
    | element e =>
      exact ⟨fun e' he => NodeContent.element.inj he ▸ hn.bindings e rfl, nofun⟩
    | root _ => exact ⟨nofun, nofun⟩
    | _ => exact hn

theorem Unread.edit (h : t.Unread) (he : Edit t t') : t'.Unread := by
  cases he with
  | place id f => exact forall_modify h fun n _ hn => ⟨hn.bindings, hn.mustache⟩
  | endTag id tag =>
    refine forall_modify h fun n _ hn => ?_
    obtain ⟨content, parent, extent⟩ := n
    cases content with
    | element e =>
      exact ⟨fun e' he => NodeContent.element.inj he ▸ hn.bindings e rfl, nofun⟩
    | _ => exact hn
  | element p extent _ hb =>
    exact h.append ⟨fun e he => NodeContent.element.inj he ▸ hb, nofun⟩
  | text p value extent => exact h.append ⟨nofun, nofun⟩
  | mustache p place extent =>
    exact h.append ⟨nofun, fun c hc => NodeContent.mustache.inj hc ▸ ⟨rfl, rfl⟩⟩

/-- The tree builder declares no variables, and reads no mustaches. -/
theorem Unread.edits (h : t.Unread) (he : Edits t t') : t'.Unread := by
  induction he with
  | refl => exact h
  | tail _ he ih => exact ih.edit he

end Tree

/-- A step of the builder changes the tree in one of these ways, or not at all. -/
theorem Draft.Step.edits {d d' : Draft} (h : d.Step d') : Tree.Edits d.tree d'.tree := by
  cases h with
  | place id f => exact (Tree.Edits.refl _).step (.place id f)
  | endTag id tag => exact (Tree.Edits.refl _).step (.endTag id tag)
  | close => exact .refl _
  | element extent _ _ hc hb => exact (Tree.Edits.refl _).step (.element _ extent hc hb)
  | text value extent => exact (Tree.Edits.refl _).step (.text _ value extent)
  | mustache _ _ place extent => exact (Tree.Edits.refl _).step (.mustache _ place extent)

/-- The tree of an outline is made by changes from the root alone. -/
theorem Builder.outline_edits (cs : List Char) (l : Locator) (tracing : Bool) (fuel : Nat) :
    Tree.Edits (Tree.ofRoot (l.extent l.fullSpan))
      (run fuel (ofChars cs l tracing)).closeAll.placeRoot.tree := by
  have hsteps := outline_steps cs l tracing fuel
  exact hsteps.keep (P := fun d => Tree.Edits (Tree.ofRoot (l.extent l.fullSpan)) d.tree)
    (.refl _) fun hs h => h.trans hs.edits

end TemplateSyntax
