import TemplateSyntax.Proofs.PrintedUnits
import TemplateSyntax.Proofs.ModeAgrees

/-! # The tree of printed markup

The tree builder makes the nodes of a forest from its units: a start tag adds an element to the
innermost open one, its children follow, and its end tag gives it its end. -/

namespace TemplateSyntax

open Text (byteLength bytes)

/-! ## Trees that grow -/

section
variable {α : Type} {xs ys : List α} {f : α → α} {i : Nat}

theorem modify_append_left (h : i < xs.length) : (xs ++ ys).modify i f = xs.modify i f ++ ys := by
  induction xs generalizing i with
  | nil => exact absurd h (Nat.not_lt_zero i)
  | cons x xs ih =>
    rw [List.cons_append, List.modify_cons, List.modify_cons]
    split
    · rfl
    · rw [ih (by rw [List.length_cons] at h; omega), List.cons_append]

end

namespace Node

/-- The node with more children. -/
def addChildren (ids : List Nat) (n : Node) : Node := ids.foldl addChild n

theorem addChildren_append (ids ids' : List Nat) (n : Node) :
    n.addChildren (ids ++ ids') = (n.addChildren ids).addChildren ids' := List.foldl_append

theorem addChildren_element (ids : List Nat) (e : Element) (parent : Option Nat) (extent : Extent) :
    addChildren ids ⟨.element e, parent, extent⟩ =
      ⟨.element { e with children := e.children ++ ids.toArray }, parent, extent⟩ := by
  induction ids generalizing e with
  | nil => simp [addChildren]
  | cons id ids ih =>
    have hpush : e.children.push id ++ ids.toArray = e.children ++ (id :: ids).toArray :=
      Array.ext' (by simp)
    rw [← hpush]
    exact ih _

theorem addChildren_root (ids : List Nat) (children : Array Nat) (parent : Option Nat)
    (extent : Extent) :
    addChildren ids ⟨.root children, parent, extent⟩ =
      ⟨.root (children ++ ids.toArray), parent, extent⟩ := by
  induction ids generalizing children with
  | nil => simp [addChildren]
  | cons id ids ih =>
    have hpush : children.push id ++ ids.toArray = children ++ (id :: ids).toArray :=
      Array.ext' (by simp)
    rw [← hpush]
    exact ih _

/-- Children do not change what an element is called. -/
theorem called_addChildren (ids : List Nat) (n : Node) :
    (n.addChildren ids).element?.map Element.called = n.element?.map Element.called := by
  induction ids generalizing n with
  | nil => rfl
  | cons id ids ih =>
    refine (ih (n.addChild id)).trans ?_
    obtain ⟨c, parent, extent⟩ := n
    cases c <;> rfl

end Node

namespace Tree

variable {t : Tree} {p : Nat} {ids ids' : List Nat} {ns ns' : List Node} {n : Node}

/-- The tree with new nodes behind its own, and new children of the node `p`. -/
def grown (t : Tree) (p : Nat) (ids : List Nat) (ns : List Node) : Tree :=
  ⟨(t.modify p (Node.addChildren ids)).nodes ++ ns.toArray⟩

theorem toList_grown : (t.grown p ids ns).nodes.toList =
    t.nodes.toList.modify p (Node.addChildren ids) ++ ns := by
  simp [grown, modify]

theorem size_grown : (t.grown p ids ns).size = t.size + ns.length := by
  simp [grown, modify, size]

theorem ext_nodes {t t' : Tree} (h : t.nodes.toList = t'.nodes.toList) : t = t' := by
  cases t
  cases t'
  exact congrArg Tree.mk (Array.ext' h)

theorem grown_nil : t.grown p [] [] = t :=
  ext_nodes (by rw [toList_grown, List.append_nil]; exact List.modify_id p _)

theorem append_eq_grown (content : NodeContent) (extent : Extent) :
    t.append p content extent = t.grown p [t.size] [⟨content, some p, extent⟩] :=
  ext_nodes (by rw [toList_grown, append, Array.toList_push, modify, Array.toList_modify]; rfl)

/-- More children of the same node, behind all nodes. -/
theorem grown_grown (hp : p < t.size) :
    (t.grown p ids ns).grown p ids' ns' = t.grown p (ids ++ ids') (ns ++ ns') := by
  refine ext_nodes ?_
  have hlength : p < (t.nodes.toList.modify p (Node.addChildren ids)).length := by
    rw [List.length_modify]
    exact hp
  have hcompose : Node.addChildren ids' ∘ Node.addChildren ids = Node.addChildren (ids ++ ids') :=
    funext fun n => (Node.addChildren_append ids ids' n).symm
  rw [toList_grown, toList_grown, toList_grown, modify_append_left hlength, List.modify_modify_eq,
    hcompose, List.append_assoc]

/-- A change to the first of the new nodes. -/
theorem modify_grown (f : Node → Node) :
    (t.grown p ids (n :: ns)).modify t.size f = t.grown p ids (f n :: ns) := by
  refine ext_nodes ?_
  have hsize : t.size = (t.nodes.toList.modify p (Node.addChildren ids)).length := by
    rw [List.length_modify]
    exact t.nodes.length_toList.symm
  rw [modify, Array.toList_modify, toList_grown, toList_grown, hsize, modify_append_length]

/-- Children of the first of the new nodes. -/
theorem grown_inside : (t.grown p ids [n]).grown t.size ids' ns' =
    t.grown p ids (n.addChildren ids' :: ns') := by
  rw [grown, modify_grown]
  refine ext_nodes ?_
  rw [Array.toList_append, toList_grown, toList_grown, List.append_assoc]
  rfl

theorem node?_grown : (t.grown p ids (n :: ns)).node? t.size = some n := by
  rw [node?, ← Array.getElem?_toList, toList_grown]
  have hsize : t.size = (t.nodes.toList.modify p (Node.addChildren ids)).length := by
    rw [List.length_modify]
    exact t.nodes.length_toList.symm
  rw [hsize, List.getElem?_append_right (Nat.le_refl _), Nat.sub_self]
  rfl

/-- New nodes change what no element is called. -/
theorem called_grown {id : Nat} (hid : id < t.size) :
    ((t.grown p ids ns).element? id).map Element.called = (t.element? id).map Element.called := by
  have hnode : (t.grown p ids ns).node? id =
      (t.node? id).map fun n => if p = id then n.addChildren ids else n := by
    rw [node?, node?, ← Array.getElem?_toList, ← Array.getElem?_toList, toList_grown,
      List.getElem?_append_left (by rw [List.length_modify]; exact hid), List.getElem?_modify]
    rfl
  have hcalled : ∀ n : Node, (if p = id then n.addChildren ids else n).element?.map
      Element.called = n.element?.map Element.called := by
    intro n
    split
    · exact n.called_addChildren ids
    · rfl
  rw [element?, element?, hnode, Option.bind_map, Option.map_bind, Option.map_bind]
  exact congrArg _ (funext hcalled)

end Tree

/-! ## Units that a builder takes -/

namespace Builder

/-- The outline that a builder has made so far, where `opened` are the open elements: no attribute
is a directive, there are no mustaches, and nothing is wrong. -/
structure Outlined (l : Locator) (t : Tree) (opened : List Nat) (b : Builder) : Prop where
  locator : b.locator = l
  tree : b.tree = t
  opened : b.opened = opened
  verbatim : b.verbatim = none
  directives : b.directives = #[]
  mustaches : b.mustaches = #[]
  diagnostics : b.diagnostics = #[]

/-- The innermost open element is the node `p`, an HTML element of the name `parent`; without one
it is the root. -/
structure Around (t : Tree) (opened : List Nat) (p : Nat) (parent : Option String) : Prop where
  current : opened.head?.getD Tree.root = p
  lt : p < t.size
  called : (opened.head?.bind t.element?).map Element.called =
    parent.map fun name => (.html, name, name)

variable {l : Locator} {t : Tree} {opened : List Nat} {b b' : Builder} {p i : Nat}
  {parent : Option String} {name : String} {us : List MarkupUnit}

/-- New nodes leave the innermost open element what it is. -/
theorem Around.grown (h : Around t opened p parent) (ids : List Nat) (ns : List Node) :
    Around (t.grown p ids ns) opened p parent where
  current := h.current
  lt := by
    rw [Tree.size_grown]
    exact Nat.lt_add_right _ h.lt
  called := by
    rw [← h.called]
    cases ho : opened.head? with
    | none => rfl
    | some id =>
      have hid : id = p := by
        have hcurrent := h.current
        rw [ho] at hcurrent
        exact hcurrent
      exact Tree.called_grown (hid ▸ h.lt)

/-- The element of a start tag is around what follows. -/
theorem Around.inside {ids : List Nat} {ns : List Node} {e : Element} {extent : Extent}
    (hns : e.ns = .html) (hname : e.name = name) (hraw : e.rawName = name) :
    Around (t.grown p ids (⟨.element e, some p, extent⟩ :: ns)) (t.size :: opened) t.size
      (some name) where
  current := rfl
  lt := by
    rw [Tree.size_grown, List.length_cons]
    omega
  called := by
    have helement :
        (t.grown p ids (⟨.element e, some p, extent⟩ :: ns)).element? t.size = some e := by
      rw [Tree.element?, Tree.node?_grown]
      rfl
    show ((Tree.grown _ _ _ _).element? t.size).map Element.called = _
    rw [helement]
    simp [Element.called, hns, hname, hraw]

theorem Outlined.logged (h : b.Outlined l t opened) (u : MarkupUnit) :
    (if b.lexer.tracing then b.logged (.pulled b.opened.length u.extent.span) else b).Outlined l t
      opened := by
  split
  · exact { h with }
  · exact h

/-- A text is a new child. -/
theorem Outlined.onText (h : b.Outlined l t opened) (ha : Around t opened p parent)
    (run : TextRun) :
    (b.onUnit (.text run)).Outlined l (t.grown p [t.size] [⟨.text run.value, some p, run.extent⟩])
      opened := by
  have hlogged := h.logged (.text run)
  unfold onUnit
  dsimp only
  generalize (if b.lexer.tracing then _ else b : Builder) = b₁ at hlogged
  have hcurrent : b₁.current = p := by rw [current, hlogged.opened, ha.current]
  refine { hlogged with tree := ?_ }
  show b₁.tree.append b₁.current (.text run.value) run.extent = _
  rw [hlogged.tree, hcurrent, Tree.append_eq_grown]

/-! ## Start tags -/

open Forest

/-- No tag closes the element that it stands in. -/
theorem Outlined.closeImplied (h : b.Outlined l t opened) (ha : Around t opened p parent)
    (himplied : ∀ q ∈ parent, ElementClass.impliesEnd q name = false) :
    b.closeImplied name = b := by
  unfold Builder.closeImplied
  split
  · next id outer e hopened he =>
    have hcalled := ha.called
    rw [currentElement?, h.opened, h.tree] at he
    rw [he] at hcalled
    cases parent with
    | none => cases hcalled
    | some q =>
      have hname : e.name = q := congrArg (fun x => x.2.2) (Option.some.inj hcalled)
      rw [hname, himplied q rfl, Bool.and_false]
      rfl
  · rfl

/-- An element in HTML that is not the root of other content is in HTML. -/
theorem Outlined.namespaceOf (h : b.Outlined l t opened) (ha : Around t opened p parent)
    (hname : isElementName name = true) (tag : StartTag) :
    ElementClass.namespaceOf b.currentElement? name tag = .html := by
  have hinherited : ElementClass.inheritedNamespace b.currentElement? name = (.html, false) := by
    have hcalled := ha.called
    rw [currentElement?, h.opened, h.tree]
    cases he : opened.head?.bind t.element? with
    | none => rfl
    | some e =>
      rw [he] at hcalled
      cases parent with
      | none => cases hcalled
      | some q =>
        have hns : e.ns = .html := congrArg Prod.fst (Option.some.inj hcalled)
        simp [ElementClass.inheritedNamespace, hns, Namespace.isForeign]
  obtain ⟨-, -, -, hne⟩ := isElementName_eq hname
  simp [ElementClass.namespaceOf, hinherited, hne]

/-- No attribute declares a namespace. -/
theorem checkNamespaces_eq {attributes : Array PlainAttribute}
    (h : ∀ a ∈ attributes, requiredUri? .html a.key.name = none) :
    b.checkNamespaces .html attributes = b := by
  unfold Builder.checkNamespaces
  rw [← Array.foldl_toList]
  have hlist : ∀ a ∈ attributes.toList, requiredUri? .html a.key.name = none := fun a ha =>
    h a (Array.mem_toList_iff.1 ha)
  generalize attributes.toList = as at hlist
  induction as with
  | nil => rfl
  | cons a as ih =>
    obtain ⟨ha, has⟩ := List.forall_mem_cons.1 hlist
    rw [List.foldl_cons, ha]
    exact ih has

/-- No attribute is a directive. -/
theorem directiveIndices_eq {attributes : Array PlainAttribute}
    (hpre : ∀ a ∈ attributes, a.key.rawName ≠ "v-pre")
    (h : ∀ a ∈ attributes, isDirectiveName a.key.rawName name = false) :
    directiveIndices name attributes = [] := by
  have hany : (attributes.any fun a => a.key.rawName == "v-pre") = false :=
    Array.any_eq_false'.2 fun a ha => by simp [hpre a ha]
  unfold directiveIndices
  rw [hany]
  refine List.filter_eq_nil_iff.2 fun i _ => ?_
  split
  · next a ha => simp [h a (Array.mem_of_getElem? ha)]
  · exact Bool.false_ne_true

theorem scheduleDirectives_eq {id : Nat} {attributes : Array PlainAttribute}
    (hverbatim : b.verbatim = none)
    (h : ∀ a ∈ attributes, isDirectiveName a.key.rawName name = false)
    (hpre : ∀ a ∈ attributes, a.key.rawName ≠ "v-pre") :
    b.scheduleDirectives id name attributes = b := by
  have hany : (attributes.any fun a => a.key.rawName == "v-pre") = false :=
    Array.any_eq_false'.2 fun a ha => by simp [hpre a ha]
  simp only [scheduleDirectives, hverbatim, directiveIndices_eq hpre h, hany, List.map_nil,
    Option.isSome_none, Bool.false_eq_true, if_false]
  rw [← hverbatim]
  simp

theorem requiredUri?_eq {s : String} (h : isAttributeName s = true) :
    requiredUri? .html s = none := by
  obtain ⟨hs, hxmlns, -⟩ := isAttributeName_eq h
  have hxlink : s ≠ "xmlns:xlink" := by
    rintro rfl
    exact absurd hs (by decide)
  simp [requiredUri?, hxmlns, hxlink]

/-- The attributes of a printed tag stand in the tree as they are. -/
theorem plainAttributes_eq {as : List (String × String)} {j : Nat}
    (has : ∀ a ∈ as, isAttributeName a.1 = true) :
    ((tagAttributes l j as).toArray.map (plainAttribute .html)).map Attribute.plain =
      (plainAttributes l j as).toArray := by
  refine Array.ext' ?_
  simp only [List.map_toArray]
  induction as generalizing j with
  | nil => rfl
  | cons a as ih =>
    obtain ⟨ha, has⟩ := List.forall_mem_cons.1 has
    have hlower : Namespace.attributeName .html a.1 = a.1 :=
      toLower_of_isName (isAttributeName_eq ha).1
    rw [tagAttributes, List.map_cons, List.map_cons, ih has, plainAttributes]
    congr 1
    show Attribute.plain ⟨⟨Namespace.attributeName .html a.1, _, _⟩, _, _⟩ = _
    rw [hlower]
    rfl

theorem mem_tagAttributes {as : List (String × String)} {j : Nat} {x : TagAttribute}
    (h : x ∈ tagAttributes l j as) : ∃ a ∈ as, x.key.value = a.1 := by
  induction as generalizing j with
  | nil => exact absurd h List.not_mem_nil
  | cons a as ih =>
    rcases List.mem_cons.1 h with rfl | h
    · exact ⟨a, List.mem_cons_self .., rfl⟩
    · obtain ⟨a', ha', heq⟩ := ih h
      exact ⟨a', List.mem_cons_of_mem a ha', heq⟩

/-- The element of a start tag, as long as nothing is inside it. -/
def openElement (l : Locator) (i : Nat) (name : String) (as : List (String × String)) :
    Element where
  name := name
  rawName := name
  ns := .html
  selfClosing := false
  attributes := (plainAttributes l (i + 1 + bytes name) as).toArray
  startTag := l.between i (i + byteLength (printStartTag name as))
  endTag := none
  children := #[]
  bindings := #[]

/-- A start tag opens a new child. -/
theorem Outlined.onStartTag (h : b.Outlined l t opened) (ha : Around t opened p parent)
    (hname : isElementName name = true)
    (himplied : ∀ q ∈ parent, ElementClass.impliesEnd q name = false)
    {as : List (String × String)} (has : ∀ a ∈ as, isAttributeName a.1 = true) :
    (b.onUnit (.startTag (startTagAt l i name as))).Outlined l
      (t.grown p [t.size] [⟨.element (openElement l i name as), some p,
        l.between i (i + byteLength (printStartTag name as))⟩]) (t.size :: opened) := by
  have hlogged := h.logged (.startTag (startTagAt l i name as))
  unfold onUnit
  dsimp only
  generalize (if b.lexer.tracing then _ else b : Builder) = b₁ at hlogged
  have hlower : name.toLower = name :=
    toLower_of_isName (isElementName_eq hname).1
  have hattributes : ∀ x ∈ (startTagAt l i name as).attributes.map (plainAttribute .html),
      isAttributeName x.key.rawName = true ∧ x.key.name = x.key.rawName := by
    intro x hx
    obtain ⟨y, hy, rfl⟩ := Array.mem_map.1 hx
    obtain ⟨a, ha, heq⟩ := mem_tagAttributes (List.mem_toArray.1 hy)
    have hraw : y.key.value.toLower = y.key.value := by
      rw [heq, toLower_of_isName (isAttributeName_eq (has a ha)).1]
    refine ⟨?_, hraw⟩
    show isAttributeName y.key.value = true
    rw [heq]
    exact has a ha
  have hrequired : ∀ x ∈ (startTagAt l i name as).attributes.map (plainAttribute .html),
      requiredUri? .html x.key.name = none := fun x hx => by
    rw [(hattributes x hx).2]
    exact requiredUri?_eq (hattributes x hx).1
  obtain ⟨-, hvoid, hcontent, -, -, htemplate⟩ := isElementName_eq hname
  have hcurrent : b₁.current = p := by rw [current, hlogged.opened, ha.current]
  unfold Builder.onStartTag
  dsimp only
  rw [show (startTagAt l i name as).rawName.toLower = name from hlower,
    hlogged.closeImplied ha himplied, hlogged.namespaceOf ha hname, checkNamespaces_eq hrequired,
    show Namespace.elementName .html (startTagAt l i name as).rawName = name from hlower,
    scheduleDirectives_eq (by exact hlogged.verbatim)
      (fun x hx => isDirectiveName_eq (hattributes x hx).1 htemplate)
      fun x hx heq => absurd (hattributes x hx).1 (by rw [heq]; decide),
    hvoid, hcontent]
  refine { hlogged with tree := ?_, opened := ?_ }
  · show b₁.tree.append b₁.current _ _ = _
    rw [hlogged.tree, hcurrent, Tree.append_eq_grown, openElement, ← plainAttributes_eq has]
    rfl
  · show b₁.tree.size :: b₁.opened = _
    rw [hlogged.tree, hlogged.opened]

/-! ## End tags -/

/-- An element with an end tag stops where that stops. -/
theorem Outlined.closeElement {ids : List Nat} {ns : List Node} {e : Element} {extent tag : Extent}
    (h : b.Outlined l (t.grown p ids (⟨.element e, some p, extent⟩ :: ns)) opened)
    (htag : e.endTag = some tag) :
    (b.closeElement t.size).Outlined l (t.grown p ids (⟨.element e, some p,
      extent.through tag⟩ :: ns)) opened := by
  have helement : b.tree.element? t.size = some e := by
    rw [h.tree, Tree.element?, Tree.node?_grown]
    rfl
  have hlast : b.lastExtent e = tag := by rw [lastExtent, htag]
  have hplaced : (b.tree.modify t.size fun n =>
      { n with extent := n.extent.through (b.lastExtent e) }) =
        t.grown p ids (⟨.element e, some p, extent.through tag⟩ :: ns) := by
    rw [h.tree, hlast, Tree.modify_grown]
  unfold Builder.closeElement
  dsimp only
  rw [helement]
  split
  · next hverbatim =>
    have hnone : (b.verbatim == some t.size) = true := hverbatim
    rw [h.verbatim] at hnone
    exact absurd hnone (by simp)
  · exact { h with tree := hplaced }

/-- An end tag closes the innermost open element. -/
theorem Outlined.onEndTag {ids : List Nat} {ns : List Node} {e : Element} {extent : Extent}
    (h : b.Outlined l (t.grown p ids (⟨.element e, some p, extent⟩ :: ns)) (t.size :: opened))
    (tag : EndTag) (hname : e.name = tag.rawName) :
    (b.onUnit (.endTag tag)).Outlined l
      (t.grown p ids (⟨.element { e with endTag := some tag.extent }, some p,
        extent.through tag.extent⟩ :: ns)) opened := by
  have hlogged := h.logged (.endTag tag)
  unfold onUnit
  dsimp only
  generalize (if b.lexer.tracing then _ else b : Builder) = b₁ at hlogged
  have helement : b₁.tree.element? t.size = some e := by
    rw [hlogged.tree, Tree.element?, Tree.node?_grown]
    rfl
  have hcloses : b₁.closes tag.rawName t.size = true := by
    rw [closes, helement]
    simp [Text.sameLetters, hname]
  have hfind : b₁.opened.findIdx? (b₁.closes tag.rawName) = some 0 ∧
      b₁.opened.find? (b₁.closes tag.rawName) = some t.size := by
    rw [hlogged.opened, List.findIdx?_cons, List.find?_cons, hcloses]
    exact ⟨rfl, rfl⟩
  unfold Builder.onEndTag
  rw [hfind.1, hfind.2]
  dsimp only
  have htree : b₁.tree.modifyElement t.size (fun e => { e with endTag := some tag.extent }) =
      t.grown p ids (⟨.element { e with endTag := some tag.extent }, some p, extent⟩ :: ns) := by
    rw [hlogged.tree, Tree.modifyElement, Tree.modify_grown]
    rfl
  rw [htree, closeInnermost, hlogged.opened]
  have hopen : Outlined l (t.grown p ids
      (⟨.element { e with endTag := some tag.extent }, some p, extent⟩ :: ns)) opened
      { b₁ with
        tree := t.grown p ids
          (⟨.element { e with endTag := some tag.extent }, some p, extent⟩ :: ns)
        opened } := { hlogged with tree := rfl, opened := rfl }
  exact { hopen.closeElement rfl with }

/-! ## Forests -/

/-- The outline of `b'` comes from that of `b` by taking units, whatever becomes of the lexer and
the assembler. -/
def Outlines : List MarkupUnit → Builder → Builder → Prop
  | [], b, b' => ∃ lexer assembler, b' = { b with lexer, assembler }
  | u :: us, b, b' => ∃ lexer assembler, Outlines us ({ b with lexer, assembler }.onUnit u) b'

/-- The nodes of a forest are added where the builder stands. -/
theorem Outlined.forest {f : Forest} (hf : f.WellFormed parent) (h : b.Outlined l t opened)
    (ha : Around t opened p parent) (hb : Outlines (f.units l i ++ us) b b') :
    ∃ b'', b''.Outlined l (t.grown p (f.tops t.size) (f.nodes l p t.size i)) opened ∧
      Outlines us b'' b' := by
  induction f generalizing i b t opened p parent us with
  | nil => exact ⟨b, by rw [tops, nodes, Tree.grown_nil]; exact h, hb⟩
  | text value behind ih =>
    obtain ⟨-, -, hbehind⟩ := hf
    obtain ⟨lexer, assembler, hb⟩ := hb
    have hread : Outlined l t opened { b with lexer, assembler } := { h with }
    have htext := hread.onText ha ⟨value, l.between i (i + bytes value)⟩
    obtain ⟨b'', h', hrest⟩ := ih hbehind htext (ha.grown _ _) hb
    refine ⟨b'', ?_, hrest⟩
    rwa [Tree.grown_grown ha.lt, Tree.size_grown] at h'
  | element name as inside behind ihInside ihBehind =>
    obtain ⟨hname, himplied, has, -, hinside, hbehind⟩ := hf
    rw [Forest.units, List.cons_append, List.append_assoc, List.cons_append] at hb
    obtain ⟨lexer, assembler, hb⟩ := hb
    have hread : Outlined l t opened { b with lexer, assembler } := { h with }
    have hstart := hread.onStartTag (i := i) ha hname himplied fun a ha => (has a ha).1
    obtain ⟨b₁, h₁, lexer₁, assembler₁, hb₁⟩ := ihInside hinside hstart (.inside rfl rfl rfl) hb
    rw [Tree.grown_inside, Node.addChildren_element, Tree.size_grown] at h₁
    have hread₁ : Outlined l _ (t.size :: opened)
      { b₁ with lexer := lexer₁, assembler := assembler₁ } := { h₁ with }
    have hend := hread₁.onEndTag (endTagAt l (i + byteLength (printStartTag name as) +
      byteLength inside.print) name) rfl
    obtain ⟨b'', h', hrest⟩ := ihBehind hbehind hend (ha.grown _ _) hb₁
    refine ⟨b'', ?_, hrest⟩
    have hsize : t.size + (inside.count + 1) = t.size + 1 + inside.count := by omega
    rw [Tree.grown_grown ha.lt, Tree.size_grown, List.length_cons, length_nodes, hsize] at h'
    simp only [openElement, Array.empty_append] at h'
    exact h'

end Builder
end TemplateSyntax
