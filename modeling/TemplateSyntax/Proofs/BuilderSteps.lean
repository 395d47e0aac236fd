import Mathlib.Logic.Relation
import TemplateSyntax.Proofs.TreeRanges
import TemplateSyntax.Tree.Outline

/-! # The steps of the tree builder

What the tree builder has drafted is its tree, the elements that are open, and the records of what is
to be read later.  It changes the draft in a few ways only, whatever the markup: it gives a node its
place, gives an element its end tag, closes the innermost open element, and adds an element, a text or
a mustache there.  What each of these steps keeps holds of every draft. -/

namespace TemplateSyntax

/-- What the tree builder has drafted. -/
structure Draft where
  tree : Tree
  /-- The open elements, the innermost first. -/
  opened : List Nat
  /-- The attributes that are directives. -/
  directives : List (Nat × Nat)
  mustaches : List PendingMustache

namespace Draft

/-- The draft of a root alone. -/
def ofRoot (extent : Extent) : Draft := ⟨Tree.ofRoot extent, [], [], []⟩

variable {d d' d'' : Draft}

/-- A change that the builder makes to its draft.  A node is added inside the innermost open element,
or the root; an element is opened then, or not. -/
inductive Step (d : Draft) : Draft → Prop
  | place (id : Nat) (f : Node → Extent) :
      Step d { d with tree := d.tree.modify id fun n => { n with extent := f n } }
  | endTag (id : Nat) (tag : Extent) :
      Step d { d with tree := d.tree.modifyElement id fun e => { e with endTag := some tag } }
  | close {id : Nat} {outer : List Nat} (ho : d.opened = id :: outer) :
      Step d { d with opened := outer }
  | element {e : Element} (extent : Extent) (found : List Nat) (opens : Bool)
      (hc : e.children = #[]) (hb : e.bindings = #[]) (hf : found.Pairwise (· < ·)) :
      Step d { d with
        tree := d.tree.append (Tree.tip d.opened) (.element e) extent
        opened := if opens then d.tree.size :: d.opened else d.opened
        directives := d.directives ++ found.map fun i => (d.tree.size, i) }
  | text (value : String) (extent : Extent) :
      Step d { d with tree := d.tree.append (Tree.tip d.opened) (.text value) extent }
  | mustache (value : String) (start : Nat) (place extent : Extent) :
      Step d { d with
        tree := d.tree.append (Tree.tip d.opened) (.mustache ⟨none, #[], place⟩) extent
        mustaches := d.mustaches ++ [⟨d.tree.size, value, start⟩] }

/-- Any number of changes. -/
def Steps : Draft → Draft → Prop := Relation.ReflTransGen Step

theorem Steps.refl (d : Draft) : Steps d d := Relation.ReflTransGen.refl

theorem Steps.trans (h : Steps d d') (h' : Steps d' d'') : Steps d d'' :=
  Relation.ReflTransGen.trans h h'

theorem Steps.next (h : Steps d d') (h' : Step d' d'') : Steps d d'' :=
  Relation.ReflTransGen.tail h h'

/-- What each step keeps is kept by all. -/
theorem Steps.keep {P : Draft → Prop} (h : Steps d d') (hd : P d)
    (hstep : ∀ {d d'}, Step d d' → P d → P d') : P d' := by
  induction h with
  | refl => exact hd
  | tail _ hs ih => exact hstep hs ih

end Draft

namespace Builder

variable {d : Draft} {b : Builder} {id : Nat} {outer : List Nat}

/-- The draft of a builder. -/
def draft (b : Builder) : Draft := ⟨b.tree, b.opened, b.directives.toList, b.mustaches.toList⟩

open Draft (Steps)

theorem closeElement_draft (b : Builder) (id : Nat) :
    (b.closeElement id).draft = { b.draft with tree := (b.closeElement id).tree } := by
  unfold closeElement
  dsimp only
  split <;> rfl

/-- The innermost element is closed and gets its place. -/
theorem closeElement_steps (h : Steps d b.draft) (id : Nat) : Steps d (b.closeElement id).draft := by
  rw [closeElement_draft]
  have htree : (b.closeElement id).tree = b.tree ∨ ∃ f : Node → Extent,
      (b.closeElement id).tree = b.tree.modify id fun n => { n with extent := f n } := by
    unfold closeElement
    dsimp only
    cases b.tree.element? id with
    | none => exact .inl (by split <;> rfl)
    | some e => exact .inr ⟨_, by split <;> rfl⟩
  rcases htree with htree | ⟨f, htree⟩
  · rw [htree]
    exact h
  · rw [htree]
    exact h.next (.place id f)

theorem closeHead_steps (h : Steps d b.draft) (ho : b.opened = id :: outer) :
    Steps d ({ b with opened := outer }.closeElement id).draft :=
  closeElement_steps (b := { b with opened := outer }) (h.next (.close ho)) id

theorem closeImplied_steps (h : Steps d b.draft) (name : String) :
    Steps d (b.closeImplied name).draft := by
  unfold closeImplied
  split
  · next ho _ =>
    split
    · exact closeHead_steps h ho
    · exact h
  · exact h

theorem closeInnermost_steps (h : Steps d b.draft) (count : Nat) :
    Steps d (b.closeInnermost count).draft := by
  induction count generalizing b with
  | zero => exact h
  | succ count ih =>
    rw [closeInnermost]
    split
    · next ho => exact ih (closeHead_steps h ho)
    · exact h

theorem checkNamespaces_draft (b : Builder) (ns : Namespace) (attributes : Array PlainAttribute) :
    (b.checkNamespaces ns attributes).draft = b.draft := by
  unfold checkNamespaces
  refine Array.foldl_induction (fun _ (b' : Builder) => b'.draft = b.draft) rfl fun i b' ih => ?_
  split
  · exact ih
  · split
    · exact ih
    · exact ih

/-- The directives of an element are put on record in the order of its attributes. -/
theorem scheduleDirectives_draft (b : Builder) (id : Nat) (name : String)
    (attributes : Array PlainAttribute) : ∃ found : List Nat, found.Pairwise (· < ·) ∧
      (b.scheduleDirectives id name attributes).draft =
        { b.draft with directives := b.draft.directives ++ found.map fun i => (id, i) } := by
  unfold scheduleDirectives
  split
  · exact ⟨[], .nil, by simp⟩
  · refine ⟨directiveIndices name attributes, List.pairwise_lt_range.filter _, ?_⟩
    dsimp only
    split <;> simp [draft, logged]

theorem checkNamespaces_tree (b : Builder) (ns : Namespace) (attributes : Array PlainAttribute) :
    (b.checkNamespaces ns attributes).tree = b.tree :=
  congrArg Draft.tree (checkNamespaces_draft b ns attributes)

theorem scheduleDirectives_tree (b : Builder) (id : Nat) (name : String)
    (attributes : Array PlainAttribute) :
    (b.scheduleDirectives id name attributes).tree = b.tree := by
  obtain ⟨_, -, hdraft⟩ := scheduleDirectives_draft b id name attributes
  exact congrArg Draft.tree hdraft

theorem onStartTag_steps (h : Steps d b.draft) (tag : StartTag) :
    Steps d (b.onStartTag tag).draft := by
  have himplied := closeImplied_steps h tag.rawName.toLower
  unfold onStartTag
  dsimp only
  generalize b.closeImplied tag.rawName.toLower = b₀ at himplied
  generalize ElementClass.namespaceOf b₀.currentElement? tag.rawName.toLower tag = ns
  have hchecked : Steps d
      (b₀.checkNamespaces ns (tag.attributes.map (plainAttribute ns))).draft := by
    rw [checkNamespaces_draft]
    exact himplied
  generalize b₀.checkNamespaces ns (tag.attributes.map (plainAttribute ns)) = b₁ at hchecked
  generalize he : ({ name := ns.elementName tag.rawName, .. } : Element) = e
  have hc : e.children = #[] := he ▸ rfl
  have hb : e.bindings = #[] := he ▸ rfl
  obtain ⟨found, hfound, hscheduled⟩ := scheduleDirectives_draft (b₁.addNode (.element e) tag.extent)
    b₁.tree.size (ns.elementName tag.rawName) (tag.attributes.map (plainAttribute ns))
  generalize (b₁.addNode (.element e) tag.extent).scheduleDirectives _ _ _ = b₂ at hscheduled ⊢
  split
  · refine closeElement_steps ?_ _
    rw [hscheduled]
    exact hchecked.next (.element tag.extent found false hc hb hfound)
  · have hopened := hchecked.next (.element tag.extent found true hc hb hfound)
    have hdraft : ∀ x, ({ b₂ with opened := b₁.tree.size :: b₂.opened, lexer := x } : Builder).draft =
        { b₂.draft with opened := b₁.tree.size :: b₂.draft.opened } := fun x => rfl
    rw [hdraft, hscheduled]
    exact hopened

theorem onEndTag_steps (h : Steps d b.draft) (tag : EndTag) : Steps d (b.onEndTag tag).draft := by
  unfold onEndTag
  split
  · next target _ _ =>
    exact closeInnermost_steps (b := { b with tree := b.tree.modifyElement target _ })
      (h.next (.endTag target tag.extent)) _
  · exact h

/-- Each unit is taken by steps. -/
theorem onUnit_steps (h : Steps d b.draft) (u : MarkupUnit) : Steps d (b.onUnit u).draft := by
  have hlog : Steps d (if b.lexer.tracing then
      b.logged (.pulled b.opened.length u.extent.span) else b).draft := by
    split
    · exact h
    · exact h
  unfold onUnit
  dsimp only
  generalize (if b.lexer.tracing then b.logged (.pulled b.opened.length u.extent.span) else b) =
    b' at hlog
  cases u with
  | startTag tag => exact onStartTag_steps hlog tag
  | endTag tag => exact onEndTag_steps hlog tag
  | text run => exact hlog.next (.text run.value run.extent)
  | mustache m =>
    have hdraft : (b'.onMustache m).draft = { b'.draft with
        tree := b'.tree.append b'.current (.mustache ⟨none, #[], m.extent⟩) m.extent
        mustaches := b'.draft.mustaches ++
          [⟨b'.tree.size, m.value, m.opening.extent.span.stop⟩] } := by
      simp [draft, onMustache, addNode, check]
    rw [hdraft]
    exact hlog.next (.mustache m.value m.opening.extent.span.stop m.extent m.extent)

theorem drain_steps (h : Steps d b.draft) : Steps d b.drain.draft := by
  unfold drain
  simp only [← Array.foldl_toList]
  have hunits : ∀ (units : List MarkupUnit) {b' : Builder}, Steps d b'.draft →
      Steps d (units.foldl onUnit b').draft := by
    intro units
    induction units with
    | nil => exact id
    | cons u units ih => exact fun hb => ih (onUnit_steps hb u)
  exact hunits _ h

/-- And so is the whole text. -/
theorem run_steps (h : Steps d b.draft) (fuel : Nat) : Steps d (run fuel b).draft := by
  induction fuel generalizing b with
  | zero => exact h
  | succ fuel ih =>
    rw [run]
    split
    · refine ih (drain_steps ?_)
      exact h
    · refine drain_steps ?_
      exact h

/-- The draft of an outline is made by steps from the root alone. -/
theorem outline_steps (cs : List Char) (l : Locator) (tracing : Bool) (fuel : Nat) :
    Steps (.ofRoot (l.extent l.fullSpan))
      (Builder.run fuel (ofChars cs l tracing)).closeAll.placeRoot.draft := by
  have hstart : Steps (.ofRoot (l.extent l.fullSpan)) (ofChars cs l tracing).draft := .refl _
  have hclosed := closeInnermost_steps (run_steps hstart fuel)
    (Builder.run fuel (ofChars cs l tracing)).opened.length
  exact hclosed.next (.place Tree.root fun _ => _)

end Builder
end TemplateSyntax
