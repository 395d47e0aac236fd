import TemplateSyntax.Proofs.Move

/-! # The spots of a template

The offsets that a template, or a part of one, holds, each with the position that stands by it.  What a
move does to a part is what it does to the spots: two moves that agree on these come to the same, and
the spots of what was moved are the moved spots. -/

namespace TemplateSyntax

/-- An offset, and its position where that is there as well. -/
structure Spot where
  offset : Nat
  position : Option Position
  deriving DecidableEq, Repr

def Move.spot (m : Move) (s : Spot) : Spot :=
  ⟨m.offset s.offset, s.position.map (m.position s.offset)⟩

/-- Parts of a template, with their spots and with what a move does to them. -/
class Spotted (α : Type) where
  spots : α → List Spot
  move : Move → α → α
  spots_move : ∀ (m : Move) (x : α), spots (move m x) = (spots x).map m.spot
  move_congr : ∀ {m m' : Move}, m.node = m'.node → ∀ {x : α},
    (∀ s ∈ spots x, m.spot s = m'.spot s) → move m x = move m' x

namespace Spotted

variable {α β : Type} [Spotted α] {m m' : Move}

/-- A part that stays where it is has all its spots where they go. -/
theorem fixed {x : α} (h : move m x = x) : ∀ s ∈ spots x, m.spot s = s := by
  have hspots := spots_move m x
  rw [h] at hspots
  intro s hs
  obtain ⟨i, hi, rfl⟩ := List.mem_iff_getElem.1 hs
  have hget := congrArg (·[i]?) hspots
  simp only [List.getElem?_map, List.getElem?_eq_getElem hi, Option.map_some] at hget
  exact (Option.some.inj hget).symm

/-! ## Collections -/

instance : Spotted (Option α) where
  spots x := (x.map spots).getD []
  move m x := x.map (move m)
  spots_move m x := by
    cases x with
    | none => rfl
    | some x => exact spots_move m x
  move_congr hn x h := by
    cases x with
    | none => rfl
    | some x => exact congrArg some (move_congr hn h)

instance : Spotted (List α) where
  spots xs := xs.flatMap spots
  move m xs := xs.map (move m)
  spots_move m xs := by
    induction xs with
    | nil => rfl
    | cons x xs ih => rw [List.map_cons, List.flatMap_cons, List.flatMap_cons, List.map_append, ih,
        spots_move]
  move_congr hn xs h :=
    List.map_congr_left fun x hx => move_congr hn fun s hs => h s (List.mem_flatMap.2 ⟨x, hx, hs⟩)

instance : Spotted (Array α) where
  spots xs := spots xs.toList
  move m xs := xs.map (move m)
  spots_move m xs := by
    rw [Array.toList_map]
    exact spots_move m xs.toList
  move_congr hn xs h := by
    apply Array.ext'
    rw [Array.toList_map, Array.toList_map]
    exact move_congr hn h

end Spotted

open Spotted

/-! ## Places -/

instance : Spotted Span where
  spots s := [⟨s.start, none⟩, ⟨s.stop, none⟩]
  move := Move.span
  spots_move _ _ := rfl
  move_congr _ s h := by
    obtain ⟨hstart, -⟩ := Spot.mk.inj (h ⟨s.start, none⟩ (by simp))
    obtain ⟨hstop, -⟩ := Spot.mk.inj (h ⟨s.stop, none⟩ (by simp))
    simp only [Move.span, hstart, hstop]

instance : Spotted Extent where
  spots e := [⟨e.span.start, some e.loc.start⟩, ⟨e.span.stop, some e.loc.stop⟩]
  move := Move.extent
  spots_move _ _ := rfl
  move_congr _ e h := by
    obtain ⟨hstart, hfirst⟩ := Spot.mk.inj (h ⟨e.span.start, some e.loc.start⟩ (by simp))
    obtain ⟨hstop, hlast⟩ := Spot.mk.inj (h ⟨e.span.stop, some e.loc.stop⟩ (by simp))
    simp only [Move.extent, Move.span, hstart, hstop, Option.some.inj hfirst, Option.some.inj hlast]

instance : Spotted Diagnostic where
  spots d := [⟨d.offset, some d.position⟩]
  move := Move.diagnostic
  spots_move _ _ := rfl
  move_congr _ d h := by
    obtain ⟨hoffset, hposition⟩ := Spot.mk.inj (h ⟨d.offset, some d.position⟩ (by simp))
    simp only [Move.diagnostic, hoffset, Option.some.inj hposition]

instance : Spotted Token where
  spots t := spots t.extent
  move := Move.token
  spots_move m t := spots_move m t.extent
  move_congr hn t h := congrArg (Token.mk t.kind t.value) (move_congr hn h)

/-! ## Embedded expressions -/

instance {κ : Type} : Spotted (Shape κ) where
  spots s := spots s.span
  move m := m.shape
  spots_move m s := spots_move m s.span
  move_congr hn s h := congrArg (Shape.mk s.kind) (move_congr hn h)

instance : Spotted FilterArgument where
  spots a := spots a.expression
  move := Move.filterArgument
  spots_move m a := spots_move m a.expression
  move_congr {m m'} hn a h := by
    have hshape : move m a.expression = move m' a.expression := move_congr hn h
    exact congrArg (FilterArgument.mk a.isSpread) hshape

instance : Spotted Filter where
  spots f := spots f.nameSpan ++ spots f.arguments ++ spots f.span
  move := Move.filter
  spots_move m f := by
    simp only [List.map_append, ← spots_move]
    rfl
  move_congr {m m'} hn f h := by
    simp only [List.forall_mem_append] at h
    show Filter.mk f.name (move m f.nameSpan) (move m f.arguments) (move m f.span) = _
    rw [move_congr hn h.1.1, move_congr hn h.1.2, move_congr hn h.2]
    rfl

instance : Spotted Expression where
  spots
    | .plain e => spots e
    | .iteration left right _ leftSpan span =>
      spots left ++ spots right ++ spots leftSpan ++ spots span
    | .handler body span => spots body ++ spots span
    | .parameters params span => spots params ++ spots span
    | .filtered head filters span => spots head ++ spots filters ++ spots span
  move := Move.expression
  spots_move m e := by
    cases e <;> simp only [List.map_append, ← spots_move] <;> rfl
  move_congr {m m'} hn e h := by
    cases e with
    | plain e => exact congrArg Expression.plain (move_congr hn h)
    | iteration left right hasParens leftSpan span =>
      simp only [List.forall_mem_append] at h
      show Expression.iteration (move m left) (move m right) hasParens (move m leftSpan)
        (move m span) = _
      rw [move_congr hn h.1.1.1, move_congr hn h.1.1.2, move_congr hn h.1.2, move_congr hn h.2]
      rfl
    | handler body span =>
      simp only [List.forall_mem_append] at h
      show Expression.handler (move m body) (move m span) = _
      rw [move_congr hn h.1, move_congr hn h.2]
      rfl
    | parameters params span =>
      simp only [List.forall_mem_append] at h
      show Expression.parameters (move m params) (move m span) = _
      rw [move_congr hn h.1, move_congr hn h.2]
      rfl
    | filtered head filters span =>
      simp only [List.forall_mem_append] at h
      show Expression.filtered (move m head) (move m filters) (move m span) = _
      rw [move_congr hn h.1.1, move_congr hn h.1.2, move_congr hn h.2]
      rfl

instance : Spotted Reference where
  spots r := spots r.span
  move := Move.reference
  spots_move m r := spots_move m r.span
  move_congr {m m'} hn r h := by
    have hv : m.variableRef = m'.variableRef := by
      unfold Move.variableRef
      rw [hn]
    show Reference.mk r.name r.mode (move m r.span) (r.target.map m.variableRef) = _
    rw [move_congr hn h, hv]
    rfl

instance : Spotted Script.Ident where
  spots id := spots id.span
  move := Move.ident
  spots_move m id := spots_move m id.span
  move_congr hn id h := congrArg (Script.Ident.mk id.name) (move_congr hn h)

instance : Spotted Variable where
  spots x := spots x.span ++ spots x.uses
  move := Move.declared
  spots_move m x := by
    simp only [List.map_append, ← spots_move]
    rfl
  move_congr {m m'} hn x h := by
    simp only [List.forall_mem_append] at h
    show Variable.mk x.name (move m x.span) x.kind (move m x.uses) = _
    rw [move_congr hn h.1, move_congr hn h.2]
    rfl

/-! ## Nodes -/

instance : Spotted Identifier where
  spots i := spots i.extent
  move := Move.identifier
  spots_move m i := spots_move m i.extent
  move_congr hn i h := congrArg (Identifier.mk i.name i.rawName) (move_congr hn h)

instance : Spotted Literal where
  spots l := spots l.extent
  move := Move.literal
  spots_move m l := spots_move m l.extent
  move_congr hn l h := congrArg (Literal.mk l.value) (move_congr hn h)

instance : Spotted PlainAttribute where
  spots a := spots a.key ++ spots a.value ++ spots a.extent
  move := Move.plainAttribute
  spots_move m a := by
    simp only [List.map_append, ← spots_move]
    rfl
  move_congr {m m'} hn a h := by
    simp only [List.forall_mem_append] at h
    show PlainAttribute.mk (move m a.key) (move m a.value) (move m a.extent) = _
    rw [move_congr hn h.1.1, move_congr hn h.1.2, move_congr hn h.2]
    rfl

instance : Spotted Container where
  spots c := spots c.expression ++ spots c.references ++ spots c.extent
  move := Move.container
  spots_move m c := by
    simp only [List.map_append, ← spots_move]
    rfl
  move_congr {m m'} hn c h := by
    simp only [List.forall_mem_append] at h
    show Container.mk (move m c.expression) (move m c.references) (move m c.extent) = _
    rw [move_congr hn h.1.1, move_congr hn h.1.2, move_congr hn h.2]
    rfl

instance : Spotted DirectiveArgument where
  spots
    | .fixed name => spots name
    | .dynamic c => spots c
  move := Move.argument
  spots_move m x := by
    cases x with
    | fixed name => exact spots_move m name
    | dynamic c => exact spots_move m c
  move_congr hn x h := by
    cases x with
    | fixed name => exact congrArg DirectiveArgument.fixed (move_congr hn h)
    | dynamic c => exact congrArg DirectiveArgument.dynamic (move_congr hn h)

instance : Spotted DirectiveKey where
  spots k := spots k.name ++ spots k.argument ++ spots k.modifiers ++ spots k.extent
  move := Move.key
  spots_move m k := by
    simp only [List.map_append, ← spots_move]
    rfl
  move_congr {m m'} hn k h := by
    simp only [List.forall_mem_append] at h
    show DirectiveKey.mk (move m k.name) (move m k.argument) (move m k.modifiers)
      (move m k.extent) = _
    rw [move_congr hn h.1.1.1, move_congr hn h.1.1.2, move_congr hn h.1.2, move_congr hn h.2]
    rfl

instance : Spotted Directive where
  spots d := spots d.key ++ spots d.value ++ spots d.extent
  move := Move.directive
  spots_move m d := by
    simp only [List.map_append, ← spots_move]
    rfl
  move_congr {m m'} hn d h := by
    simp only [List.forall_mem_append] at h
    show Directive.mk (move m d.key) (move m d.value) (move m d.extent) = _
    rw [move_congr hn h.1.1, move_congr hn h.1.2, move_congr hn h.2]
    rfl

instance : Spotted Attribute where
  spots
    | .plain a => spots a
    | .directive d => spots d
  move := Move.anyAttribute
  spots_move m x := by
    cases x with
    | plain a => exact spots_move m a
    | directive d => exact spots_move m d
  move_congr hn x h := by
    cases x with
    | plain a => exact congrArg Attribute.plain (move_congr hn h)
    | directive d => exact congrArg Attribute.directive (move_congr hn h)

instance : Spotted Element where
  spots e := spots e.attributes ++ spots e.startTag ++ spots e.endTag ++ spots e.bindings
  move := Move.element
  spots_move m e := by
    simp only [List.map_append, ← spots_move]
    rfl
  move_congr {m m'} hn e h := by
    simp only [List.forall_mem_append] at h
    show Element.mk e.name e.rawName e.ns e.selfClosing (move m e.attributes) (move m e.startTag)
      (move m e.endTag) (e.children.map m.node) (move m e.bindings) = _
    rw [move_congr hn h.1.1.1, move_congr hn h.1.1.2, move_congr hn h.1.2, move_congr hn h.2, hn]
    rfl

instance : Spotted NodeContent where
  spots
    | .element e => spots e
    | .mustache c => spots c
    | _ => []
  move := Move.content
  spots_move m x := by
    cases x with
    | element e => exact spots_move m e
    | mustache c => exact spots_move m c
    | root children => rfl
    | text value => rfl
  move_congr hn x h := by
    cases x with
    | element e => exact congrArg NodeContent.element (move_congr hn h)
    | mustache c => exact congrArg NodeContent.mustache (move_congr hn h)
    | root children => exact congrArg (fun f => NodeContent.root (children.map f)) hn
    | text value => rfl

instance : Spotted Node where
  spots n := spots n.content ++ spots n.extent
  move := Move.treeNode
  spots_move m n := by
    simp only [List.map_append, ← spots_move]
    rfl
  move_congr {m m'} hn n h := by
    simp only [List.forall_mem_append] at h
    show Node.mk (move m n.content) (n.parent.map m.node) (move m n.extent) = _
    rw [move_congr hn h.1, move_congr hn h.2, hn]
    rfl

/-- What happens to a tree, if the nodes stay in their order. -/
def Move.tree (m : Move) (t : Tree) : Tree := ⟨t.nodes.map m.treeNode⟩

theorem Move.tree_eq {m : Move} {t t' : Tree}
    (h : ∀ id, t'.node? id = (t.node? id).map m.treeNode) : t' = m.tree t := by
  obtain ⟨nodes⟩ := t'
  refine congrArg Tree.mk (Array.ext_getElem? fun id => ?_)
  rw [Array.getElem?_map]
  exact h id

instance : Spotted Tree where
  spots t := spots t.nodes
  move := Move.tree
  spots_move m t := spots_move m t.nodes
  move_congr hn _ h := congrArg Tree.mk (move_congr hn h)

namespace Template

/-- All offsets and positions of what was read, but for the log. -/
def spots (t : Template) : List Spot :=
  Spotted.spots t.tree ++ Spotted.spots t.tokens ++ Spotted.spots t.comments ++
    Spotted.spots t.diagnostics

/-- What was read at one place and at another one. -/
structure Moved (m : Move) (t t' : Template) : Prop where
  tree : t'.tree = m.tree t.tree
  tokens : t'.tokens = t.tokens.map m.token
  comments : t'.comments = t.comments.map m.token
  diagnostics : t'.diagnostics = t.diagnostics.map m.diagnostic

theorem Moved.spots {m : Move} {t t' : Template} (h : t.Moved m t') :
    t'.spots = t.spots.map m.spot := by
  simp only [Template.spots, h.tree, h.tokens, h.comments, h.diagnostics, List.map_append,
    ← spots_move]
  rfl

/-- Moves that agree on all spots come to the same. -/
theorem Moved.congr {m m' : Move} {t t' : Template} (h : t.Moved m t') (hn : m.node = m'.node)
    (hs : ∀ s ∈ t.spots, m.spot s = m'.spot s) : t.Moved m' t' := by
  simp only [Template.spots, List.forall_mem_append] at hs
  exact ⟨h.tree.trans (move_congr hn hs.1.1.1), h.tokens.trans (move_congr hn hs.1.1.2),
    h.comments.trans (move_congr hn hs.1.2), h.diagnostics.trans (move_congr hn hs.2)⟩

theorem Moved.node? {m : Move} {t t' : Template} (h : t.Moved m t') (id : Nat) :
    t'.tree.node? id = (t.tree.node? id).map m.treeNode := by
  rw [h.tree]
  exact Array.getElem?_map

/-- What is read alike at the place that a move leads to has all its spots where they go. -/
theorem Moved.fixed {m : Move} {t : Template} (h : t.Moved m t) :
    ∀ s ∈ t.spots, m.spot s = s := by
  simp only [Template.spots, List.forall_mem_append]
  exact ⟨⟨⟨Spotted.fixed h.tree.symm, Spotted.fixed h.tokens.symm⟩,
    Spotted.fixed h.comments.symm⟩, Spotted.fixed h.diagnostics.symm⟩

end Template

end TemplateSyntax
