import TemplateSyntax.Proofs.ParseStages
import TemplateSyntax.Proofs.VerbatimElements

/-! # `v-pre` in what is read

The attributes on record become directives when they are read, and no others do.  So what holds of the
record of the tree builder holds of the directives of a template. -/

namespace TemplateSyntax

/-- Whether a node is a mustache, and which attributes of an element are directives. -/
def Node.face (n : Node) : Bool × Option (Array Bool) :=
  (n.isMustache, n.element?.map fun e => e.attributes.map Attribute.isDirective)

namespace Tree

variable {t t' : Tree} {id d i : Nat}

/-- The face of the node of an index. -/
def face? (t : Tree) (id : Nat) : Option (Bool × Option (Array Bool)) := (t.node? id).map Node.face

/-- The attribute of an index of an element is a directive. -/
def DirectiveAt (t : Tree) (id i : Nat) : Prop :=
  ∃ e d, t.element? id = some e ∧ e.attributes[i]? = some (.directive d)

/-- Whether an attribute is a directive, if it is there. -/
def directiveAt? (t : Tree) (id i : Nat) : Option Bool :=
  (t.element? id).bind fun e => e.attributes[i]?.map Attribute.isDirective

theorem directiveAt_iff : t.DirectiveAt id i ↔ t.directiveAt? id i = some true := by
  constructor
  · rintro ⟨e, d, he, hd⟩
    rw [directiveAt?, he, Option.bind_some, hd]
    rfl
  · intro h
    obtain ⟨e, he, hx⟩ := Option.bind_eq_some_iff.1 h
    obtain ⟨x, hx, hdirective⟩ := Option.map_eq_some_iff.1 hx
    cases x with
    | plain a => exact absurd hdirective Bool.false_ne_true
    | directive d => exact ⟨e, d, he, hx⟩

theorem Writes.directiveAt? {x : PlainAttribute} (h : t.Writes id i x) :
    t.directiveAt? id i = some false := by
  obtain ⟨e, he, hx⟩ := h
  rw [Tree.directiveAt?, he, Option.bind_some, hx]
  rfl

theorem directiveAt?_eq_face (t : Tree) (id i : Nat) :
    t.directiveAt? id i = (t.face? id).bind fun face => face.2.bind fun flags => flags[i]? := by
  rw [directiveAt?, element?, face?]
  cases t.node? id with
  | none => rfl
  | some n =>
    rw [Option.bind_some, Option.map_some, Option.bind_some, Node.face]
    cases n.element? with
    | none => rfl
    | some e => simp

theorem isMustache_iff_face : t.IsMustache id ↔ (t.face? id).map Prod.fst = some true := by
  rw [isMustache_iff, face?, Option.map_map]
  rfl

theorem face?_modify {f : Node → Node} (h : ∀ n, t.node? id = some n → (f n).face = n.face) :
    (t.modify id f).face? d = t.face? d := by
  rw [face?, face?, map_node?_modify _ h]

/-- Tying references to variables changes no face. -/
theorem face?_resolve (t : Tree) (id : Nat) : t.resolve.face? id = t.face? id := by
  have huse : ∀ (links : List (VariableRef × Script.Ident)) (t : Tree),
      (t.addUses links).face? id = t.face? id := by
    intro links
    induction links with
    | nil => exact fun t => rfl
    | cons link links ih =>
      refine fun t => (ih (t.addUse link.1 link.2)).trans (face?_modify fun n _ => ?_)
      obtain ⟨content, parent, extent⟩ := n
      cases content <;> rfl
  have hbind : t.bindAll.face? id = t.face? id := by
    rw [face?, node?_bindAll, face?]
    cases t.node? id with
    | none => rfl
    | some n =>
      obtain ⟨content, parent, extent⟩ := n
      refine congrArg some ?_
      cases content with
      | root _ | text _ | mustache _ => rfl
      | element e =>
        refine congrArg (fun flags => (false, some flags)) ?_
        have hkeeps : ∀ x : Attribute,
            (x.mapContainers t.bind id parent).isDirective = x.isDirective := by
          intro x
          cases x <;> rfl
        show (e.attributes.map (·.mapContainers t.bind id parent)).map Attribute.isDirective = _
        rw [Array.map_map]
        exact Array.map_congr_left fun x _ => hkeeps x
  rw [resolve_eq]
  exact (huse _ _).trans hbind

end Tree

namespace Template

open TemplateSyntax.Tree (face? directiveAt?)

namespace Progress

variable {r : Reading} {p : Progress} {id i : Nat}

/-- Reading a directive turns one attribute into a directive, and changes the type of no node. -/
theorem readDirective_face (r : Reading) (p : Progress) (d : Nat × Nat) (id i : Nat) :
    ((p.readDirective r d).tree.directiveAt? id i =
      if d = (id, i) ∧ p.tree.directiveAt? id i = some false then some true
      else p.tree.directiveAt? id i) ∧
    ((p.readDirective r d).tree.IsMustache id ↔ p.tree.IsMustache id) := by
  by_cases h : ∃ x, ((p.tree.element? d.1).bind fun e => e.attributes[d.2]?) = some (.plain x)
  · obtain ⟨x, hx⟩ := h
    obtain ⟨e, he, hx⟩ := Option.bind_eq_some_iff.1 hx
    rw [readDirective_eq r p he hx]
    dsimp only
    generalize (r.directive x).directive = y
    generalize (r.directive x).bindings = bindings
    have helement : ∀ j, (p.tree.modifyElement d.1 fun e =>
        { e with attributes := e.attributes.set! d.2 (.directive y), bindings := e.bindings ++ bindings
          }).element? j = if d.1 = j then (p.tree.element? j).map fun e =>
        { e with attributes := e.attributes.set! d.2 (.directive y), bindings := e.bindings ++ bindings
          } else p.tree.element? j := by
      intro j
      rw [Tree.element?, Tree.modifyElement, Tree.node?_modify, Tree.element?]
      split
      · cases p.tree.node? j with
        | none => rfl
        | some n =>
          obtain ⟨content, parent, extent⟩ := n
          cases content <;> rfl
      · rfl
    refine ⟨?_, ?_⟩
    · rw [directiveAt?, helement, directiveAt?]
      by_cases hid : d.1 = id
      · subst hid
        rw [if_pos rfl, he, Option.map_some, Option.bind_some, Option.bind_some]
        by_cases hi : d.2 = i
        · subst hi
          have hlt := (Array.getElem?_eq_some_iff.1 hx).1
          rw [hx, Array.set!_eq_setIfInBounds, Array.getElem?_setIfInBounds_self_of_lt hlt]
          simp [Attribute.isDirective]
        · have hne : d ≠ (d.1, i) := fun heq => hi (Prod.mk.inj heq).2
          rw [if_neg fun hand => hne hand.1, Array.set!_eq_setIfInBounds,
            Array.getElem?_setIfInBounds_ne hi]
      · have hne : d ≠ (id, i) := by
          rintro rfl
          exact hid rfl
        rw [if_neg hid, if_neg fun hand => hne hand.1]
    · rw [Tree.isMustache_iff, Tree.isMustache_iff, Tree.modifyElement, Tree.map_node?_modify]
      rintro ⟨content, parent, extent⟩ -
      cases content <;> rfl
  · have hne : ∀ x, ((p.tree.element? d.1).bind fun e => e.attributes[d.2]?) ≠ some (.plain x) :=
      fun x hx => h ⟨x, hx⟩
    rw [readDirective_of_ne r p hne]
    refine ⟨?_, Iff.rfl⟩
    rw [if_neg]
    · rfl
    · rintro ⟨rfl, hplain⟩
      obtain ⟨e, he, hx⟩ := Option.bind_eq_some_iff.1 hplain
      obtain ⟨x, hx, hflag⟩ := Option.map_eq_some_iff.1 hx
      cases x with
      | plain a => exact hne a (by rw [he]; exact hx)
      | directive d => exact absurd hflag.symm Bool.false_ne_true

/-- Reading directives turns those attributes into directives that are on record. -/
theorem readDirectives_face (r : Reading) (ds : List (Nat × Nat)) (p : Progress) (id i : Nat) :
    ((ds.foldl (readDirective r) p).tree.directiveAt? id i =
      if (id, i) ∈ ds ∧ p.tree.directiveAt? id i = some false then some true
      else p.tree.directiveAt? id i) ∧
    ((ds.foldl (readDirective r) p).tree.IsMustache id ↔ p.tree.IsMustache id) := by
  induction ds generalizing p with
  | nil => exact ⟨by simp, Iff.rfl⟩
  | cons d ds ih =>
    obtain ⟨hone, hmustache⟩ := readDirective_face r p d id i
    obtain ⟨hrest, hmustache'⟩ := ih (p.readDirective r d)
    refine ⟨?_, hmustache'.trans hmustache⟩
    rw [List.foldl_cons, hrest, hone]
    by_cases hd : d = (id, i)
    · subst hd
      by_cases hplain : p.tree.directiveAt? id i = some false <;> simp [hplain]
    · have hne : (id, i) ≠ d := Ne.symm hd
      simp [hd, hne]

/-- Reading a mustache changes no face. -/
theorem readMustache_face {m : PendingMustache} {ms : List PendingMustache}
    (h : MustachesThere p.tree (m :: ms)) :
    (p.readMustache r m).tree.face? id = p.tree.face? id := by
  obtain ⟨n, c, hn, hc⟩ := h m (List.mem_cons_self ..)
  rw [readMustache_eq r p hn]
  refine Tree.face?_modify fun n' hn' => ?_
  obtain rfl := Option.some.inj (hn.symm.trans hn')
  obtain ⟨content, parent, extent⟩ := n
  obtain rfl : content = .mustache c := hc
  rfl

theorem readMustaches_face {ms : List PendingMustache} (h : MustachesThere p.tree ms) :
    (ms.foldl (readMustache r) p).tree.face? id = p.tree.face? id := by
  induction ms generalizing p with
  | nil => rfl
  | cons m ms ih =>
    exact (ih (readMustache_spec (r := r) h).2.1).trans (readMustache_face h)

end Progress

variable (text : String) (o : Options) (reader : Script.Reader)

/-- Before they are read, no attribute is a directive. -/
theorem not_directiveAt_outline (id i : Nat) : ¬ (outlineOf text o).tree.DirectiveAt id i := by
  rintro ⟨e, d, he, hd⟩
  obtain ⟨taken, hwhole⟩ := builderOf_whole text o
  rw [outlineOf_tree] at he
  obtain ⟨ns, x, heq, -⟩ := hwhole.attributes id e he _ (Array.mem_of_getElem? hd)
  exact absurd heq nofun

/-- The directives of a template are those on record, and its mustaches are those of the outline. -/
theorem parse_face (id i : Nat) : ((parse text o reader).tree.DirectiveAt id i ↔
      (id, i) ∈ (outlineOf text o).directives ∧
        (outlineOf text o).tree.directiveAt? id i = some false) ∧
    ((parse text o reader).tree.IsMustache id ↔ (outlineOf text o).tree.IsMustache id) := by
  have hface : (parse text o reader).tree.face? id = (directivesRead text o reader).tree.face? id := by
    rw [parse_tree, Tree.face?_resolve]
    exact Progress.readMustaches_face (mustachesThere text o)
  obtain ⟨hdirective, hmustache⟩ := Progress.readDirectives_face (readingOf text o reader)
    (outlineOf text o).directives.toList { tree := (outlineOf text o).tree } id i
  constructor
  · rw [Tree.directiveAt_iff, Tree.directiveAt?_eq_face, hface, ← Tree.directiveAt?_eq_face]
    refine (Eq.congr_left hdirective).trans ?_
    rw [← Array.mem_toList_iff]
    have hno := not_directiveAt_outline text o id i
    rw [Tree.directiveAt_iff] at hno
    split
    · next h => simp [h]
    · next h => exact ⟨fun heq => absurd heq hno, fun heq => absurd heq h⟩
  · rw [Tree.isMustache_iff_face, hface, ← Tree.isMustache_iff_face]
    exact hmustache

/-- The directives of a template are those that are chosen in their elements, outside of elements with
`v-pre`. -/
theorem parse_directiveAt_iff (id i : Nat) : (parse text o reader).tree.DirectiveAt id i ↔
    (outlineOf text o).tree.Chooses id i ∧ (outlineOf text o).tree.OutsidePre id := by
  have hrecord := (builderOf_honours text o).directives id i
  rw [← outlineOf_tree, ← outlineOf_directives] at hrecord
  rw [(parse_face text o reader id i).1, hrecord]
  refine ⟨And.left, fun h => ⟨h, ?_⟩⟩
  obtain ⟨e, x, he, hx, -⟩ := h.1
  exact Tree.Writes.directiveAt? ⟨e, he, hx⟩

/-- The nodes above a node are its ancestors in the template. -/
theorem mem_ancestors_parse (a d : Nat) :
    a ∈ (parse text o reader).tree.ancestors d ↔ (outlineOf text o).tree.Above a d := by
  have hshape : (outlineOf text o).tree.SameShape (parse text o reader).tree :=
    sameShape_parse text o
  have hlinked : (parse text o reader).tree.Linked := by
    obtain ⟨taken, hwhole⟩ := builderOf_whole text o
    rw [outlineOf_tree] at hshape
    exact hwhole.nests.linked.congr hshape.size hshape.parent hshape.children
  rw [hlinked.mem_ancestors_iff, Tree.above_congr hshape.parent]

/-- What `v-pre` does to a template.  The attributes of its elements as they were written stand in the
outline. -/
structure HonoursPre : Prop where
  /-- Where `v-pre` is a directive, it is the only one. -/
  alone : ∀ id i x, (outlineOf text o).tree.Writes id i x → x.key.rawName = "v-pre" →
    (parse text o reader).tree.DirectiveAt id i → ∀ j,
      (parse text o reader).tree.DirectiveAt id j →
        ∃ y, (outlineOf text o).tree.Writes id j y ∧ y.key.rawName = "v-pre"
  /-- Below it there are neither directives nor mustaches. -/
  below : ∀ id i x, (outlineOf text o).tree.Writes id i x → x.key.rawName = "v-pre" →
    (parse text o reader).tree.DirectiveAt id i → ∀ d,
      id ∈ (parse text o reader).tree.ancestors d →
        (∀ j, ¬ (parse text o reader).tree.DirectiveAt d j) ∧
          ¬ (parse text o reader).tree.IsMustache d
  /-- Elsewhere all attributes that are directives by their names are read as such. -/
  elsewhere : ∀ id, ¬ (outlineOf text o).tree.HasPre id →
    (∀ a ∈ (parse text o reader).tree.ancestors id, ¬ (outlineOf text o).tree.HasPre a) →
    ∀ e i x, (outlineOf text o).tree.element? id = some e → e.attributes[i]? = some (.plain x) →
      isDirectiveName x.key.rawName e.name = true → (parse text o reader).tree.DirectiveAt id i
  /-- There interpolation is on, whatever unit comes next. -/
  interpolating : ∀ b, Pulling text o b → (∀ id ∈ b.opened, ¬ b.tree.HasPre id) →
    b.lexer.interpolating = true

/-- `v-pre` is honoured in every template. -/
theorem parse_honoursPre : HonoursPre text o reader where
  alone id i x hx hname hi j hj := by
    have hpre : (outlineOf text o).tree.HasPre id := ⟨i, x, hx, hname⟩
    obtain ⟨⟨e, y, he, hy, hor⟩, -⟩ := (parse_directiveAt_iff text o reader id j).1 hj
    rcases hor with ⟨-, hy'⟩ | ⟨hno, -⟩
    · exact ⟨y, ⟨e, he, hy⟩, hy'⟩
    · exact absurd hpre hno
  below id i x hx hname hi d hd := by
    have hpre : (outlineOf text o).tree.HasPre id := ⟨i, x, hx, hname⟩
    rw [mem_ancestors_parse] at hd
    refine ⟨fun j hj => ?_, fun hm => ?_⟩
    · exact ((parse_directiveAt_iff text o reader d j).1 hj).2 id hd hpre
    · rw [(parse_face text o reader d 0).2, outlineOf_tree] at hm
      rw [outlineOf_tree] at hd hpre
      exact (builderOf_honours text o).mustaches d hm id hd hpre
  elsewhere id hno habove e i x he hx hname := by
    refine (parse_directiveAt_iff text o reader id i).2 ⟨⟨e, x, he, hx, .inr ⟨hno, hname⟩⟩, ?_⟩
    exact fun a ha => habove a ((mem_ancestors_parse text o reader a id).2 ha)
  interpolating b hb hno := by
    have hmarks := hb.honours.marks
    have hoff := hb.steers.2.off
    cases hv : b.verbatim with
    | none =>
      rw [hoff.told, hv]
      rfl
    | some id =>
      have hid := hoff.mem id hv
      rw [hv] at hmarks
      obtain ⟨inner, outer, -, -, hpre, -⟩ := hmarks
      exact absurd hpre (hno id hid)

end Template
end TemplateSyntax
