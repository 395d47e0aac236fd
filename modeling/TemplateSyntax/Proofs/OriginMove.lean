import TemplateSyntax.Proofs.Fresh
import TemplateSyntax.Proofs.GapsMove
import TemplateSyntax.Proofs.JoinedReading
import TemplateSyntax.Proofs.OutlineMove
import TemplateSyntax.Proofs.ReferencesBound
import TemplateSyntax.Proofs.Spots

/-! # Templates at another origin

The origin of a template only moves what is read: all offsets by one distance, all lines by another
one, and the columns of the first line.  It has no say in anything else. -/

namespace TemplateSyntax

/-- The options at another origin. -/
def Options.withOrigin (o : Options) (a : Origin) : Options := { o with origin := a }

namespace Origin

/-- The origin from which the places in a template are counted. -/
def zero : Origin := ⟨0, 0, 0⟩

/-- What a template is moved by from there to another origin. -/
def shift (a : Origin) : Move where
  offset x := a.offset + x
  node id := id
  position _ p := ⟨a.line + p.line, if p.line = 0 then a.column + p.column else p.column⟩
  offset_lt := Nat.add_lt_add_iff_left

/-- The same text, read at the origin `a`. -/
def relocation (cs : List Char) (a : Origin) : Relocation where
  offset x := a.offset + x
  node id := id
  position x _ := (Locator.ofChars cs a).position (a.offset + x)
  offset_lt := Nat.add_lt_add_iff_left
  source := Locator.ofChars cs zero
  locator := Locator.ofChars cs a
  index := 0
  tail := []
  nodes := 0
  gaps := #[]
  diagnostics := #[]
  host_eq i := by simp [Locator.host, Locator.ofChars, zero]
  position_eq _ _ := rfl
  node_root := rfl
  node_eq id _ := (Nat.zero_add id).symm

variable (cs : List Char) (a : Origin)

theorem relocation_position (x : Nat) (p : Position) (h : p = (Locator.ofChars cs zero).position x) :
    (relocation cs a).position x p = a.shift.position x p := by
  subst h
  simp [relocation, shift, Locator.position, Locator.place, Locator.relative, Locator.ofChars, zero]

end Origin

namespace Builder

open Origin

variable {cs : List Char} {a : Origin} {tracing : Bool}

/-- The builders in front of the text. -/
theorem moved_ofChars (cs : List Char) (a : Origin) (tracing : Bool) :
    (ofChars cs (Locator.ofChars cs zero) tracing).Moved (relocation cs a) (Seen [])
      (ofChars cs (Locator.ofChars cs a) tracing) (ofChars cs (Locator.ofChars cs a) tracing) := by
  have hfresh : (ofChars cs (Locator.ofChars cs a) tracing).Fresh (cs ++ (relocation cs a).tail)
      (relocation cs a).index := by
    rw [show (relocation cs a).tail = [] from rfl, List.append_nil]
    exact fresh_ofChars cs _ tracing
  exact hfresh.moved (.inl rfl) tracing ⟨rfl, rfl⟩ rfl rfl rfl ⟨#[], _, rfl⟩

/-- The place of the root moves as well, if it is not shared with what was read before. -/
theorem Moved.placeRoot_node {r : Relocation} {seen : Prop} {b before b' : Builder}
    (h : b.Moved r seen before b') (hbefore : before.tree.children Tree.root = #[])
    (hindex : r.index = 0) :
    b'.placeRoot.tree.node? Tree.root = (b.placeRoot.tree.node? Tree.root).map r.treeNode := by
  obtain ⟨children, extent, extent', htop, htop'⟩ := h.tree.top
  rw [hbefore, Array.empty_append] at htop'
  have hspan : b'.rootSpan = r.span b.rootSpan := by
    have hchildren : b.tree.children Tree.root = children := Tree.children_eq htop
    have hchildren' : b'.tree.children Tree.root = children.map r.node := Tree.children_eq htop'
    have hnode : ∀ c ∈ children, b'.tree.node? (r.node c) = (b.tree.node? c).map r.treeNode :=
      fun c hc => h.tree.node c (h.tree.child Tree.root c (hchildren ▸ hc))
    have hfirst : (children.map r.node)[0]?.bind b'.tree.node? =
        (children[0]?.bind b.tree.node?).map r.treeNode := by
      rw [Array.getElem?_map]
      cases hc : children[0]? with
      | none => rfl
      | some c => exact hnode c (Array.mem_of_getElem? hc)
    have hlast : (children.map r.node).back?.bind b'.tree.node? =
        (children.back?.bind b.tree.node?).map r.treeNode := by
      rw [Array.back?_map]
      cases hc : children.back? with
      | none => rfl
      | some c => exact hnode c (Array.mem_of_back? hc)
    unfold rootSpan
    dsimp only
    rw [hchildren, hchildren', hfirst, hlast]
    cases children[0]?.bind b.tree.node? with
    | none =>
      have hhost := r.host_eq 0
      rw [hindex] at hhost
      rw [h.source, h.target]
      simp only [Option.map_none, Span.empty, Move.span]
      rw [← hhost]
    | some first =>
      cases children.back?.bind b.tree.node? with
      | none =>
        have hhost := r.host_eq 0
        rw [hindex] at hhost
        rw [h.source, h.target]
        simp only [Option.map_none, Option.map_some, Span.empty, Move.span]
        rw [← hhost]
      | some last => rfl
  have hplace : ∀ b : Builder, b.placeRoot.tree.node? Tree.root =
      (b.tree.node? Tree.root).map fun n => { n with extent := b.locator.extent b.rootSpan } := by
    intro b
    exact Tree.node?_modify .. |>.trans (if_pos rfl)
  rw [hplace, hplace, htop, htop', hspan, h.source, h.target, Option.map_some, Option.map_some,
    Option.map_some, ← r.extent_locator]
  rfl

end Builder

namespace Template

open Origin

variable (text : String) (o : Options) (a : Origin)

/-- The outlines at both origins. -/
theorem builderOf_moved : ∃ taken, (builderOf text (o.withOrigin zero)).Moved
    (relocation text.toList a) (Seen taken)
    (Builder.ofChars text.toList (Locator.ofChars text.toList a) o.tracing)
    (builderOf text (o.withOrigin a)) ∧
    (builderOf text (o.withOrigin a)).tree.node? Tree.root =
      ((builderOf text (o.withOrigin zero)).tree.node? Tree.root).map
        (relocation text.toList a).treeNode := by
  have hfuel := Builder.tokensLeft_ofChars text.toList zero o.tracing
  have hruns := Runs.start text.toList zero o.tracing
  have hmoved := Builder.moved_ofChars text.toList a o.tracing
  obtain ⟨taken, -, hrun⟩ := hmoved.run hruns rfl hfuel
  exact ⟨taken, hrun.closeAll.placeRoot,
    hrun.closeAll.placeRoot_node (Tree.children_ofRoot _ _) rfl⟩

/-- The root of the outline is a root. -/
theorem builderOf_root :
    ∃ children e, (builderOf text o).tree.node? Tree.root = some ⟨.root children, none, e⟩ := by
  obtain ⟨taken, hmoved, -⟩ := builderOf_moved text o o.origin
  obtain ⟨children, extent, extent', -, htop⟩ := hmoved.tree.top
  exact ⟨_, extent', htop⟩

/-- What is to be read is not at the root. -/
theorem embedded_ne_root :
    (∀ d ∈ (builderOf text o).directives.toList, d.1 ≠ Tree.root ∧
      d.1 < (builderOf text o).tree.size) ∧
    ∀ y ∈ (builderOf text o).mustaches.toList, y.node ≠ Tree.root ∧
      y.node < (builderOf text o).tree.size := by
  obtain ⟨taken, hwhole⟩ := builderOf_whole text o
  obtain ⟨children, extent, htop⟩ := builderOf_root text o
  refine ⟨fun d hd => ?_, fun y hy => ?_⟩
  · obtain ⟨e, x, he, -⟩ := hwhole.directives d (Array.mem_toList_iff.1 hd)
    refine ⟨fun hroot => ?_, Tree.element?_isSome (he ▸ rfl)⟩
    rw [hroot, Tree.element?_eq htop] at he
    cases he
  · obtain ⟨⟨n, hn, c, hc⟩, -⟩ := hwhole.mustaches y (Array.mem_toList_iff.1 hy)
    refine ⟨fun hroot => ?_, Tree.lt_size hn⟩
    rw [hroot, htop] at hn
    obtain rfl := Option.some.inj hn
    cases hc

variable {reader : Script.Reader}

/-- The root keeps what it has in the outline. -/
theorem parse_root : (parse text o reader).tree.node? Tree.root =
    (builderOf text o).tree.node? Tree.root := by
  obtain ⟨hdirectives, hmustaches⟩ := embedded_ne_root text o
  obtain ⟨children, extent, htop⟩ := builderOf_root text o
  have hread := Progress.read_root (t := (builderOf text o).tree) (fun d hd => (hdirectives d hd).1)
    (fun y hy => (hmustaches y hy).1) (readingOf text o reader)
  rw [← progressOf_eq, htop] at hread
  rw [parse_tree, htop]
  exact Tree.resolve_root hread

/-- All texts are mapped to where they are at the other origin. -/
theorem maps_origin (code : List Char) (start : Nat) :
    (readingOf text (o.withOrigin zero) reader).Maps (relocation text.toList a).toMove
      (readingOf text (o.withOrigin a) reader) code start := by
  obtain ⟨taken, hmoved, -⟩ := builderOf_moved text o a
  obtain ⟨hsorted, hmem⟩ := (builderOf text (o.withOrigin zero)).lexer.sortedGaps_spec
  obtain ⟨hsorted', hmem'⟩ := (builderOf text (o.withOrigin a)).lexer.sortedGaps_spec
  have hgaps := hmoved.lexer.gaps
  rw [← readingOf_gaps _ _ reader] at hsorted hmem hsorted' hmem'
  have hlater := OffsetMap.laterGaps_move (b := start) hsorted hsorted'
    (relocation text.toList a).offset_lt List.Pairwise.nil (by simp) fun x _ => by
      rw [hmem', hgaps]
      simp [relocation, hmem]
  exact Reading.maps_of_gaps hsorted hsorted' (fun k => (Nat.add_assoc ..).symm) hlater (by simp)

theorem mapsAttribute_origin (x : PlainAttribute) :
    Progress.MapsAttribute (relocation text.toList a).toMove (readingOf text (o.withOrigin zero) reader)
      (readingOf text (o.withOrigin a) reader) x where
  key := ⟨fun _ => (Nat.add_assoc ..).symm, fun _ _ => maps_origin text o a _ _⟩
  value _ _ := {
    quoted := Reading.isQuoted_congr rfl (Nat.add_sub_cancel_left ..)
    start := fun _ => (Nat.add_assoc ..).symm
    maps := maps_origin text o a _ _ }

/-- What is embedded in the outline is mapped to the other origin. -/
theorem mapsPart_origin : Progress.MapsPart (relocation text.toList a).toMove
    (readingOf text (o.withOrigin zero) reader) (readingOf text (o.withOrigin a) reader)
    (builderOf text (o.withOrigin zero)).tree
    (builderOf text (o.withOrigin zero)).directives.toList
    (builderOf text (o.withOrigin zero)).mustaches.toList := by
  exact ⟨⟨rfl, rfl, rfl, fun s => ((relocation text.toList a).extent_locator _ s).symm⟩,
    fun _ _ x _ _ => mapsAttribute_origin text o a x, fun y _ => maps_origin text o a _ _,
    (embedded_ne_root text (o.withOrigin zero)).1, (embedded_ne_root text (o.withOrigin zero)).2⟩

/-- The embedded texts are read as they are at the other origin. -/
theorem progressOf_relocation :
    Tree.Joins .refl (relocation text.toList a).toMove (Tree.ofRoot default)
      (progressOf text (o.withOrigin zero) reader).tree (progressOf text (o.withOrigin a) reader).tree ∧
    (progressOf text (o.withOrigin a) reader).log =
      (progressOf text (o.withOrigin zero) reader).log.map (relocation text.toList a).logEntry := by
  obtain ⟨taken, hmoved, -⟩ := builderOf_moved text o a
  have hpart : (Tree.ofRoot default).Part .refl (Tree.ofRoot default) :=
    ⟨fun _ _ => id, fun id hid hlt => absurd (Nat.lt_one_iff.1 hlt) hid⟩
  have hnone : ∀ id, (Tree.ofRoot default).element? id = none := by
    intro id
    cases hn : (Tree.ofRoot default).node? id with
    | none => rw [Tree.element?, hn, Option.bind_none]
    | some n => rw [Tree.element?_eq hn, (Tree.node?_ofRoot hn).2]; rfl
  have hjoins : Tree.Joins .refl (relocation text.toList a).toMove (Tree.ofRoot default)
      (builderOf text (o.withOrigin zero)).tree (builderOf text (o.withOrigin a)).tree :=
    hmoved.tree.joins (fun _ => rfl) rfl (hpart.congr fun id hid hlt =>
      absurd (Nat.lt_one_iff.1 hlt) hid) rfl (Tree.children_ofRoot _ _)
  have hfront : Progress.MapsPart .refl (readingOf text (o.withOrigin a) reader)
      (readingOf text (o.withOrigin a) reader) (Tree.ofRoot default) [] [] :=
    ⟨⟨rfl, rfl, rfl, fun _ => rfl⟩, fun id e x he _ => by simp [hnone] at he,
      by simp, by simp, by simp⟩
  obtain ⟨hread, la, la', lb, lb', hempty, hlog, hwhole⟩ :=
    Progress.read_joins hjoins hfront (mapsPart_origin text o a)
  have hdirectives : (builderOf text (o.withOrigin a)).directives.toList =
      [].map Move.refl.place ++ (builderOf text (o.withOrigin zero)).directives.toList.map
        (relocation text.toList a).place := by
    rw [hmoved.directives]
    simp [Builder.ofChars]
  have hmustaches : (builderOf text (o.withOrigin a)).mustaches.toList =
      [].map Move.refl.pendingMustache ++ (builderOf text (o.withOrigin zero)).mustaches.toList.map
        (relocation text.toList a).pendingMustache := by
    rw [hmoved.mustaches]
    simp [Builder.ofChars]
  rw [progressOf_eq, progressOf_eq, hdirectives, hmustaches]
  refine ⟨hread, ?_⟩
  obtain ⟨rfl, rfl⟩ : la = #[] ∧ la' = #[] := Array.append_eq_empty_iff.1 hempty.symm
  rw [hwhole, hlog, Array.map_append, Array.map_empty, Array.empty_append, Array.append_empty]

/-- The trees, node by node. -/
theorem tree_relocation : (parse text (o.withOrigin a) reader).tree =
    (relocation text.toList a).tree (parse text (o.withOrigin zero) reader).tree := by
  obtain ⟨taken, hmoved, hroot⟩ := builderOf_moved text o a
  have hlinked : (Tree.ofRoot default).Linked :=
    (Tree.NestedUpTo.ofRoot 0 default).linked
  have huntied : (Tree.ofRoot default).Untied := by
    intro id n hn
    obtain ⟨-, rfl⟩ := Tree.node?_ofRoot hn
    exact fun c hc => absurd hc List.not_mem_nil
  have hjoins := (@progressOf_relocation text o a reader).1.resolve hlinked
    (linked_progressOf text (o.withOrigin zero)) (linked_progressOf text (o.withOrigin a))
    ⟨huntied, progressOf_untied text (o.withOrigin zero), progressOf_untied text (o.withOrigin a)⟩
  rw [← parse_root, ← parse_root] at hroot
  rw [← parse_tree, ← parse_tree] at hjoins
  have hsize : (parse text (o.withOrigin a) reader).tree.size =
      (parse text (o.withOrigin zero) reader).tree.size := by
    have hone : (Tree.ofRoot default).resolve.size = 1 := Tree.size_resolve _
    have := hjoins.size
    omega
  have hnode : ∀ id, (parse text (o.withOrigin a) reader).tree.node? id =
      ((parse text (o.withOrigin zero) reader).tree.node? id).map (relocation text.toList a).treeNode := by
    intro id
    by_cases hid : id = Tree.root
    · rw [hid, hroot]
    · by_cases hlt : id < (parse text (o.withOrigin zero) reader).tree.size
      · exact hjoins.back.node id hid hlt
      · have hnone : ∀ t : Tree, t.size ≤ id → t.node? id = none := fun t hle =>
          Array.getElem?_eq_none hle
        rw [hnone _ (by omega), hnone _ (by omega), Option.map_none]
  exact Move.tree_eq hnode

/-- All that is read moves with the origin. -/
theorem parse_relocation : (parse text (o.withOrigin zero) reader).Moved
    (relocation text.toList a).toMove (parse text (o.withOrigin a) reader) := by
  obtain ⟨taken, hmoved, -⟩ := builderOf_moved text o a
  obtain ⟨-, hlog⟩ := @progressOf_relocation text o a reader
  refine ⟨tree_relocation text o a, ?_, ?_, ?_⟩
  · rw [parse_eq, parse_eq, outlineOf_eq, outlineOf_eq]
    dsimp only
    rw [hmoved.assembler.tokens]
    simp [Builder.ofChars]
  · rw [parse_eq, parse_eq, outlineOf_eq, outlineOf_eq]
    dsimp only
    rw [hmoved.assembler.comments]
    simp [Builder.ofChars]
  · have hdiagnose : ∀ cause x, (locatorOf text (o.withOrigin a)).diagnose cause
        ((relocation text.toList a).offset x) = (relocation text.toList a).diagnostic
          ((locatorOf text (o.withOrigin zero)).diagnose cause x) := fun cause x =>
      ((relocation text.toList a).diagnostic_diagnose _ cause x).symm
    have hfaults := LogEntry.diagnostics_logEntry hdiagnose
      (progressOf text (o.withOrigin zero) reader).log.toList
    have houtline : (outlineOf text (o.withOrigin a)).diagnostics =
        (outlineOf text (o.withOrigin zero)).diagnostics.map
          (relocation text.toList a).diagnostic := by
      rw [outlineOf_eq, outlineOf_eq]
      dsimp only
      rw [hmoved.lexer.diagnostics, hmoved.assembler.diagnostics, hmoved.diagnostics]
      simp [Builder.ofChars, relocation]
    rw [parse_eq, parse_eq]
    dsimp only
    rw [hlog, houtline, Array.toList_map, Array.toList_map, hfaults, ← List.map_append, inOrder_map,
      List.map_toArray]

/-- All positions are those of their offsets. -/
theorem spots_exact {s : Spot} (hs : s ∈ (parse text o reader).spots) {p : Position}
    (hp : s.position = some p) : p = (locatorOf text o).position s.offset := by
  have hmoved : (parse text (o.withOrigin zero) reader).Moved (relocation text.toList o.origin).toMove
    (parse text o reader) := parse_relocation text o o.origin
  rw [hmoved.spots, List.mem_map] at hs
  obtain ⟨x, -, rfl⟩ := hs
  obtain ⟨q, -, rfl⟩ := Option.map_eq_some_iff.1 hp
  rfl

/-- Read at the origin `a`, a template is what it is where all places are counted from zero, moved. -/
theorem parse_shift : (parse text (o.withOrigin zero) reader).Moved a.shift
    (parse text (o.withOrigin a) reader) := by
  refine (parse_relocation text o a).congr rfl fun s hs => ?_
  have hposition : s.position.map ((relocation text.toList a).position s.offset) =
      s.position.map (a.shift.position s.offset) := by
    cases hp : s.position with
    | none => rfl
    | some p =>
      have hexact := spots_exact text (o.withOrigin zero) hs hp
      exact congrArg some (relocation_position text.toList a s.offset p hexact)
  exact congrArg (Spot.mk (a.offset + s.offset)) hposition

/-- How far a position at the origin `b` is from what it is at the origin `a`.  Columns differ on the
first line of the template only. -/
structure PositionsApart (a b : Origin) (p q : Position) : Prop where
  line : (q.line : Int) - p.line = (b.line : Int) - a.line
  column : (q.column : Int) - p.column = if p.line = a.line then (b.column : Int) - a.column else 0

/-- How far a spot at the origin `b` is from what it is at the origin `a`. -/
structure SpotsApart (a b : Origin) (s s' : Spot) : Prop where
  offset : (s'.offset : Int) - s.offset = (b.offset : Int) - a.offset
  position : Option.Rel (PositionsApart a b) s.position s'.position

theorem spotsApart_shift (a b : Origin) (s : Spot) :
    SpotsApart a b (a.shift.spot s) (b.shift.spot s) where
  offset := by
    simp only [Move.spot, shift]
    omega
  position := by
    obtain ⟨x, position⟩ := s
    cases position with
    | none => exact .none
    | some p =>
      refine .some ⟨?_, ?_⟩
      · simp only [shift]
        omega
      · have hfirst : a.line + p.line = a.line ↔ p.line = 0 := by omega
        simp only [shift, hfirst]
        by_cases hline : p.line = 0
        · simp only [if_pos hline]
          omega
        · simp only [if_neg hline, Int.sub_self]

/-- The origin of a template decides about places only, whatever reads its scripts.  Read at two origins,
a template is one and the same, moved, so that all offsets are as far apart as those of the origins, all
lines as far as the lines of the origins, and all columns as far as their columns on the first line of the
template, and equal behind that. -/
theorem parse_equivariant (b : Origin) :
    (∃ t : Template, t.Moved a.shift (parse text (o.withOrigin a) reader) ∧
      t.Moved b.shift (parse text (o.withOrigin b) reader)) ∧
    List.Forall₂ (SpotsApart a b) (parse text (o.withOrigin a) reader).spots
      (parse text (o.withOrigin b) reader).spots := by
  have ha := @parse_shift text o a reader
  have hb := @parse_shift text o b reader
  refine ⟨⟨_, ha, hb⟩, ?_⟩
  rw [ha.spots, hb.spots, List.forall₂_map_left_iff, List.forall₂_map_right_iff,
    List.forall₂_same]
  exact fun s _ => spotsApart_shift a b s

end Template
end TemplateSyntax
