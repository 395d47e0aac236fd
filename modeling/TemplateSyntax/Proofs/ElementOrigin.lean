import TemplateSyntax.Proofs.EndTags
import TemplateSyntax.Proofs.TakenUnits

/-! # Where elements come from

Each element of a tree was added for a start tag, and stays as that tag made it but for its children, its
end tag and what is read of its attributes.  Where the tag starts text without tags, the lexer is told so
when the element is added. -/

namespace TemplateSyntax

open TemplateSyntax.Tree (tip)

/-- What an element is by its start tag, but for the attributes. -/
def Element.bare (e : Element) : Element := { e.shell with endTag := none, children := #[] }

namespace Tree

variable {t t' : Tree} {id j p : Nat} {content : NodeContent} {extent : Extent}

/-- The element of an index, as its start tag has it. -/
def bare? (t : Tree) (id : Nat) : Option Element := (t.element? id).map Element.bare

theorem SameNodes.bare? (h : t.SameNodes t') (id : Nat) : t'.bare? id = t.bare? id := by
  rw [Tree.bare?, h.element?]
  rfl

theorem bare?_append (hj : j ≠ t.size) : (t.append p content extent).bare? j = t.bare? j :=
  element?_append Element.bare hj fun _ _ => rfl

theorem bare?_setEndTag (tag : Extent) :
    (t.modifyElement id fun e => { e with endTag := some tag }).bare? j = t.bare? j := by
  rw [bare?, element?_modifyElement]
  split
  · rw [Option.map_map]
    rfl
  · rfl

end Tree

namespace Builder

variable {b b' : Builder} {id j : Nat} {tag : StartTag} {e : Element} {u : MarkupUnit}
  {ms : List (Builder × MarkupUnit)} {s : LexState}

/-! ## Units -/

/-- A start tag that is taken adds its element. -/
theorem onUnit_adds (b : Builder) (tag : StartTag) :
    ∃ e outer, b.Adds tag e outer (b.onUnit (.startTag tag)) := by
  obtain ⟨log, hunit⟩ := b.onUnit_withLog (.startTag tag)
  obtain ⟨e, outer, hadds, -⟩ := (b.withLog log).onStartTag_adds tag
  rw [show b.onUnit (.startTag tag) = (b.withLog log).onStartTag tag from hunit]
  exact ⟨e, outer, { hadds with }⟩

theorem Adds.element? {outer : List Nat} (h : b.Adds tag e outer b') :
    b'.tree.element? b.tree.size = some e :=
  (h.nodes.element? b.tree.size).trans Tree.element?_append_self

/-- A unit that is no start tag adds no element. -/
theorem onUnit_element?_size (hu : ∀ tag, u ≠ .startTag tag) :
    (b.onUnit u).tree.element? b.tree.size = none := by
  obtain ⟨log, hunit⟩ := b.onUnit_withLog u
  cases u with
  | startTag tag => exact absurd rfl (hu tag)
  | endTag tag =>
    rw [show b.onUnit (.endTag tag) = (b.withLog log).onEndTag tag from hunit]
    by_cases hnone : ∀ i ∈ (b.withLog log).opened, (b.withLog log).closes tag.rawName i = false
    · rw [onEndTag_refuses hnone]
      exact b.tree.element?_size
    · obtain ⟨inner, id, outer, ho, hid, hinner⟩ := exists_closes hnone
      rw [(onEndTag_ends ho hid hinner).nodes.element?, Tree.element?_modifyElement,
        show (b.withLog log).tree.element? b.tree.size = none from b.tree.element?_size]
      split <;> rfl
  | text run =>
    rw [show b.onUnit (.text run) = (b.withLog log).onText run from hunit]
    exact (b.withLog log).tree.element?_append_self
  | mustache m =>
    rw [show b.onUnit (.mustache m) = (b.withLog log).onMustache m from hunit]
    exact (b.withLog log).tree.element?_append_self

/-- An element that is there stays as its start tag has made it. -/
theorem onUnit_bare? (u : MarkupUnit) (hj : j ≠ b.tree.size) :
    (b.onUnit u).tree.bare? j = b.tree.bare? j := by
  obtain ⟨log, hunit⟩ := b.onUnit_withLog u
  cases u with
  | startTag tag =>
    rw [show b.onUnit (.startTag tag) = (b.withLog log).onStartTag tag from hunit]
    obtain ⟨e, outer, hadds, -⟩ := (b.withLog log).onStartTag_adds tag
    exact (hadds.nodes.bare? j).trans (Tree.bare?_append hj)
  | endTag tag =>
    rw [show b.onUnit (.endTag tag) = (b.withLog log).onEndTag tag from hunit]
    by_cases hnone : ∀ i ∈ (b.withLog log).opened, (b.withLog log).closes tag.rawName i = false
    · rw [onEndTag_refuses hnone]
      rfl
    · obtain ⟨inner, id, outer, ho, hid, hinner⟩ := exists_closes hnone
      exact ((onEndTag_ends ho hid hinner).nodes.bare? j).trans (Tree.bare?_setEndTag _)
  | text run =>
    rw [show b.onUnit (.text run) = (b.withLog log).onText run from hunit]
    exact Tree.bare?_append (t := (b.withLog log).tree) hj
  | mustache m =>
    rw [show b.onUnit (.mustache m) = (b.withLog log).onMustache m from hunit]
    exact Tree.bare?_append (t := (b.withLog log).tree) hj

/-- An element that was not there before was added for a start tag. -/
theorem Follows.exists_startTag (h : b.Follows ms b') (hnone : b.tree.bare? id = none)
    (he : b'.tree.bare? id = some e) : ∃ c tag, (c, .startTag tag) ∈ ms ∧ c.tree.size = id ∧
      (c.onUnit (.startTag tag)).tree.bare? id = some e := by
  induction h with
  | nothing => exact absurd (hnone.symm.trans he) (Option.some_ne_none e).symm
  | read h x a ih => exact ih he
  | @unit ms c h u ih =>
    by_cases hid : id = c.tree.size
    · subst hid
      by_cases hstart : ∃ tag, u = .startTag tag
      · obtain ⟨tag, rfl⟩ := hstart
        exact ⟨c, tag, by simp, rfl, he⟩
      · rw [Tree.bare?, onUnit_element?_size fun tag htag => hstart ⟨tag, htag⟩] at he
        cases he
    · obtain ⟨d, tag, hmem, hrest⟩ := ih ((onUnit_bare? u hid).symm.trans he)
      exact ⟨d, tag, List.mem_append_left _ hmem, hrest⟩

/-- The lexer is told to read text without tags behind the start tag of such an element. -/
theorem onStartTag_enters (he : (b.onStartTag tag).tree.element? b.tree.size = some e)
    (hns : e.ns = .html) (hleaf : e.isLeaf = false)
    (hs : ElementClass.contentState? tag.rawName.toLower = some s) :
    ∃ y, b.lexer.Told y ∧ (b.onStartTag tag).lexer = y.enter s := by
  unfold Builder.onStartTag at he ⊢
  dsimp only at he ⊢
  have himplied := closeImplied_told (.refl b.lexer) tag.rawName.toLower
  obtain ⟨_, -, -, hsame, -, -⟩ := b.closeImplied_spec tag.rawName.toLower
  rw [← hsame.size] at he
  generalize b.closeImplied tag.rawName.toLower = b₀ at himplied he ⊢
  generalize ElementClass.namespaceOf b₀.currentElement? tag.rawName.toLower tag = ns at he ⊢
  have hchecked := checkNamespaces_told himplied ns (tag.attributes.map (plainAttribute ns))
  have hdraft := checkNamespaces_draft b₀ ns (tag.attributes.map (plainAttribute ns))
  generalize b₀.checkNamespaces ns (tag.attributes.map (plainAttribute ns)) = b₁ at hchecked hdraft he ⊢
  rw [← show b₁.tree = b₀.tree from congrArg Draft.tree hdraft] at he
  generalize hnew : Element.mk _ _ _ _ _ _ _ _ _ = e' at he ⊢
  have hadded : b.lexer.Told (b₁.addNode (.element e') tag.extent).lexer := hchecked
  have hthere : (b₁.addNode (.element e') tag.extent).tree.element? b₁.tree.size = some e' :=
    Tree.element?_eq (Tree.node?_append_self b₁.tree b₁.current (.element e') tag.extent)
  generalize b₁.addNode (.element e') tag.extent = b₂ at hadded hthere he ⊢
  obtain ⟨-, htree, -⟩ := scheduleDirectives_stays b₂ b₁.tree.size (ns.elementName tag.rawName)
    (tag.attributes.map (plainAttribute ns))
  have hscheduled := scheduleDirectives_told hadded b₁.tree.size (ns.elementName tag.rawName)
    (tag.attributes.map (plainAttribute ns))
  generalize b₂.scheduleDirectives _ _ _ = b₃ at htree hscheduled he ⊢
  rw [← htree] at hthere
  split at he
  · next hclosed =>
    rw [(closeElement_sameNodes b₃ _).element?, hthere] at he
    obtain rfl := Option.some.inj he
    rw [← hnew] at hleaf
    exact absurd (hclosed.symm.trans hleaf) (by decide)
  · next hopen =>
    obtain rfl := Option.some.inj (hthere.symm.trans he)
    obtain rfl : ns = .html := by rw [← hnew] at hns; exact hns
    rw [if_neg hopen, hs]
    exact ⟨_, hscheduled.trans ⟨_, _, _, rfl⟩, rfl⟩

end Builder
end TemplateSyntax
