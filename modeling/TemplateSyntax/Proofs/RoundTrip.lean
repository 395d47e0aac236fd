import TemplateSyntax.Proofs.CharactersKept
import TemplateSyntax.Proofs.JoinedReading
import TemplateSyntax.Proofs.PrintedTree

/-! # Printed markup is read back

A template that is the printed text of a forest is read as that forest: nothing is wrong in it, and
each node of its tree stands where it was printed. -/

namespace TemplateSyntax

open Text (byteLength bytes)

namespace Builder

variable {cs : List Char} {l : Locator} {taken ts : List Token} {b b' : Builder} {x : Lexer}
  {us us' : List MarkupUnit}

/-! ## Runs -/

theorem Outlines.reads {lexer : Lexer} {assembler : Assembler}
    (h : Outlines us { b with lexer, assembler } b') : Outlines us b b' := by
  cases us with
  | nil =>
    obtain ⟨y, a, heq⟩ := h
    exact ⟨y, a, heq⟩
  | cons u us =>
    obtain ⟨y, a, hrest⟩ := h
    exact ⟨y, a, hrest⟩

/-- Units are taken one after the other. -/
theorem Outlines.onUnits {lexer : Lexer} {assembler : Assembler}
    (h : Outlines us' (us.foldl onUnit { b with lexer, assembler }) b') :
    Outlines (us ++ us') b b' := by
  induction us generalizing b lexer assembler with
  | nil => exact h.reads
  | cons u us ih =>
    exact ⟨lexer, assembler, ih (b := { b with lexer, assembler }.onUnit u) h⟩

/-- No start tag lets the lexer read on in another way. -/
def Plain (us : List MarkupUnit) : Prop :=
  ∀ tag, .startTag tag ∈ us → ElementClass.contentState? tag.rawName.toLower = none

theorem onStartTag_told (h : x.Told b.lexer) {tag : StartTag}
    (hc : ElementClass.contentState? tag.rawName.toLower = none) :
    x.Told (b.onStartTag tag).lexer := by
  unfold onStartTag
  dsimp only
  split
  · refine closeElement_told (scheduleDirectives_told ?_ _ _ _) _
    exact checkNamespaces_told (closeImplied_told h _) _ _
  · rw [hc]
    dsimp only
    split
    all_goals
      refine (scheduleDirectives_told ?_ _ _ _).trans ⟨_, _, _, rfl⟩
      exact checkNamespaces_told (closeImplied_told h _) _ _

theorem onUnit_told_of_plain (h : x.Told b.lexer) {u : MarkupUnit} (hu : Plain [u]) :
    x.Told (b.onUnit u).lexer := by
  cases u with
  | endTag tag | text run | mustache m => exact (onUnit_steered h _).2 (by simp)
  | startTag tag =>
    unfold onUnit
    dsimp only
    refine onStartTag_told ?_ (hu tag (List.mem_singleton_self _))
    split
    · exact logged_told h _
    · exact h

theorem onUnits_told (h : x.Told b.lexer) (hus : Plain us) :
    x.Told (us.foldl onUnit b).lexer := by
  induction us generalizing b with
  | nil => exact h
  | cons u us ih =>
    refine ih (onUnit_told_of_plain h fun tag ht => hus tag ?_) fun tag ht =>
      hus tag (List.mem_cons_of_mem u ht)
    exact List.mem_singleton.1 ht ▸ List.mem_cons_self ..

theorem drain_eq (b : Builder) : b.drain = b.assembler.output.toList.foldl onUnit
    { b with assembler := { b.assembler with output := #[] } } := by
  simp only [drain, Assembler.takeOutput, Array.foldl_toList]

/-- What is complete in the assembler is taken first. -/
theorem Outlines.drain {a : Assembler}
    (h : Outlines us ({ b with lexer := x, assembler := a } : Builder).drain b') :
    Outlines (a.output.toList ++ us) b b' := by
  rw [drain_eq] at h
  exact .onUnits h

theorem drain_told {a : Assembler} (hus : Plain a.output.toList) :
    x.Told ({ b with lexer := x, assembler := a } : Builder).drain.lexer := by
  rw [drain_eq]
  exact onUnits_told (.refl x) hus

/-- A run takes the units that the assembler makes from the tokens that the lexer yields, and no
part of the reader finds anything wrong. -/
theorem run_outlines {fuel : Nat} (hr : Runs cs l taken b) (hfuel : b.lexer.tokensLeft < fuel)
    (hl : b.lexer.Yields ts) (ha : b.assembler.Yields ts us) (hus : Plain us) :
    Outlines us b (run fuel b) ∧ (run fuel b).lexer.diagnostics = #[] ∧
      (run fuel b).assembler.diagnostics = #[] := by
  induction ts generalizing b taken us fuel with
  | nil =>
    obtain ⟨x, hpull, hx⟩ := hl
    obtain ⟨rfl, hd⟩ := ha
    obtain ⟨fuel, rfl⟩ : ∃ n, fuel = n + 1 := ⟨fuel - 1, by omega⟩
    rw [run_atEnd hpull]
    refine ⟨?_, ?_, ?_⟩
    · rw [← List.append_nil b.assembler.commit.output.toList]
      exact .drain ⟨_, _, rfl⟩
    · obtain ⟨ns, interpolating, log, heq⟩ := drain_told (x := x) (b := b) hus
      rw [atEnd, heq]
      exact hx
    · rw [atEnd, drain_assembler]
      exact hd
  | cons t ts ih =>
    obtain ⟨x, hpull, hx⟩ := hl
    obtain ⟨us', rfl, ha⟩ := ha
    obtain ⟨fuel, rfl⟩ : ∃ n, fuel = n + 1 := ⟨fuel - 1, by omega⟩
    have htold : x.Told (b.take t x).lexer :=
      drain_told fun tag ht => hus tag (List.mem_append_left us' ht)
    have hassembler : (b.take t x).assembler = { b.assembler.process t with output := #[] } := by
      rw [take, drain_assembler]
    cases hr.next with
    | ended hpull' _ _ _ => exact absurd (hpull.symm.trans hpull') (by simp)
    | token hpull' _ _ hruns hlt _ =>
      obtain ⟨ht, rfl⟩ := Prod.mk.inj (hpull.symm.trans hpull')
      obtain rfl := Option.some.inj ht
      have hfuel' : (b.take t x).lexer.tokensLeft < fuel := by omega
      obtain ⟨houtlines, hrest⟩ := ih hruns hfuel' (hx _ htold)
        (hassembler.symm ▸ ha) fun tag ht => hus tag (List.mem_append_right _ ht)
      rw [run_token hpull]
      exact ⟨.drain houtlines, hrest⟩

end Builder

/-! ## The root -/

namespace Forest

variable {l : Locator}

/-- The first node starts where the forest does. -/
theorem nodes_first {f : Forest} {id k : Nat} (h : (f.tops id).head? = some k) (parent i : Nat) :
    k = id ∧ ∃ n, (f.nodes l parent id i)[0]? = some n ∧ n.extent.span.start = l.host i := by
  cases f with
  | nil => cases h
  | text value behind => exact ⟨(Option.some.inj h).symm, _, rfl, rfl⟩
  | element name attributes inside behind => exact ⟨(Option.some.inj h).symm, _, rfl, rfl⟩

theorem tops_eq_nil {f : Forest} {id : Nat} (h : f.tops id = []) : f = nil := by
  cases f with
  | nil => rfl
  | text value behind => cases h
  | element name attributes inside behind => cases h

/-- The last outermost node stops where the forest does. -/
theorem nodes_last {f : Forest} {id k : Nat} (h : (f.tops id).getLast? = some k) (parent i : Nat) :
    id ≤ k ∧ ∃ n, (f.nodes l parent id i)[k - id]? = some n ∧
      n.extent.span.stop = l.host (i + byteLength f.print) := by
  induction f generalizing id i with
  | nil => cases h
  | text value behind ih =>
    rw [tops] at h
    rw [print, Text.byteLength_append, ← Nat.add_assoc]
    cases hbehind : behind.tops (id + 1) with
    | nil =>
      obtain rfl := tops_eq_nil hbehind
      obtain rfl : id = k := Option.some.inj h
      exact ⟨Nat.le_refl _, _, by rw [Nat.sub_self]; rfl, rfl⟩
    | cons j js =>
      rw [hbehind, List.getLast?_cons_cons, ← hbehind] at h
      obtain ⟨hle, n, hn, hstop⟩ := ih h (i + bytes value)
      refine ⟨by omega, n, ?_, hstop⟩
      obtain ⟨d, rfl⟩ := Nat.exists_eq_add_of_le hle
      have hd : id + 1 + d - id = d + 1 := by omega
      rw [Nat.add_sub_cancel_left] at hn
      rw [hd, nodes, List.getElem?_cons_succ, hn]
  | element name attributes inside behind ihInside ihBehind =>
    rw [tops] at h
    rw [print, Text.byteLength_append, Text.byteLength_append, Text.byteLength_append,
      ← Nat.add_assoc, ← Nat.add_assoc, ← Nat.add_assoc]
    cases hbehind : behind.tops (id + 1 + inside.count) with
    | nil =>
      obtain rfl := tops_eq_nil hbehind
      obtain rfl : id = k := Option.some.inj h
      exact ⟨Nat.le_refl _, _, by rw [Nat.sub_self]; rfl, rfl⟩
    | cons j js =>
      rw [hbehind, List.getLast?_cons_cons, ← hbehind] at h
      obtain ⟨hle, n, hn, hstop⟩ := ihBehind h (i + byteLength (printStartTag name attributes) +
        byteLength inside.print + byteLength (printEndTag name))
      refine ⟨by omega, n, ?_, hstop⟩
      obtain ⟨d, rfl⟩ := Nat.exists_eq_add_of_le hle
      have hd : id + 1 + inside.count + d - id = inside.count + d + 1 := by omega
      rw [Nat.add_sub_cancel_left] at hn
      rw [hd, nodes, List.getElem?_cons_succ, List.getElem?_append_right, length_nodes,
        Nat.add_sub_cancel_left, hn]
      rw [length_nodes]
      exact Nat.le_add_right _ _

end Forest

namespace Builder

variable {l : Locator} {b : Builder} {f : Forest}

/-- The root reaches from the first node to the last one. -/
theorem Outlined.placeRoot {extent : Extent}
    (h : b.Outlined l
      ((Tree.ofRoot extent).grown Tree.root (f.tops 1) (f.nodes l Tree.root 1 0)) []) :
    b.closeAll.placeRoot.Outlined l (f.tree l) [] ∧ b.closeAll.placeRoot.lexer = b.lexer ∧
      b.closeAll.placeRoot.assembler = b.assembler := by
  have hclose : b.closeAll = b := closeInnermost_nil h.opened _
  have hnodes : b.tree.nodes.toList =
      ⟨.root (f.tops 1).toArray, none, extent⟩ :: f.nodes l Tree.root 1 0 := by
    rw [h.tree, Tree.toList_grown]
    show Node.addChildren (f.tops 1) ⟨.root #[], none, extent⟩ :: _ = _
    rw [Node.addChildren_root, Array.empty_append]
    rfl
  have hchildren : b.tree.children Tree.root = (f.tops 1).toArray := by
    rw [Tree.children, Tree.node?, ← Array.getElem?_toList, hnodes]
    rfl
  have hnode : ∀ k, b.tree.node? (1 + k) = (f.nodes l Tree.root 1 0)[k]? := by
    intro k
    rw [Tree.node?, ← Array.getElem?_toList, hnodes, Nat.add_comm, List.getElem?_cons_succ]
  have hspan : b.rootSpan = ⟨l.host 0, l.host (byteLength f.print)⟩ := by
    unfold rootSpan
    dsimp only
    rw [hchildren, h.locator]
    cases htops : f.tops 1 with
    | nil =>
      obtain rfl := Forest.tops_eq_nil htops
      rfl
    | cons k ks =>
      obtain ⟨last, hlast⟩ : ∃ last, (f.tops 1).getLast? = some last := by
        rw [htops]
        exact ⟨_, List.getLast?_cons⟩
      obtain ⟨rfl, first, hfirst, hstart⟩ :=
        Forest.nodes_first (l := l) (congrArg List.head? htops) Tree.root 0
      obtain ⟨hle, final, hfinal, hstop⟩ := Forest.nodes_last (l := l) hlast Tree.root 0
      obtain ⟨d, rfl⟩ := Nat.exists_eq_add_of_le hle
      have hfront : (1 :: ks).toArray[0]?.bind b.tree.node? = some first := (hnode 0).trans hfirst
      have hback : (1 :: ks).toArray.back?.bind b.tree.node? = some final := by
        rw [← htops, List.back?_toArray, hlast, Option.bind_some, hnode]
        rwa [Nat.add_sub_cancel_left] at hfinal
      rw [hfront, hback]
      show (⟨first.extent.span.start, final.extent.span.stop⟩ : Span) = _
      rw [hstart, hstop, Nat.zero_add]
  rw [hclose]
  refine ⟨{ h with tree := Tree.ext_nodes ?_ }, rfl, rfl⟩
  show (b.tree.modify Tree.root _).nodes.toList = _
  rw [Tree.modify, Array.toList_modify, hnodes, hspan, h.locator]
  rfl

end Builder

/-! ## Resolving -/

/-- A node without embedded texts. -/
structure Node.IsPlain (n : Node) : Prop where
  containers : n.containers = []
  stays : ∀ f id, n.mapContainers f id = n

/-- A tree without embedded texts stays as it is when references are bound. -/
theorem Tree.resolve_of_plain {t : Tree} (h : ∀ n ∈ t.nodes, n.IsPlain) : t.resolve = t := by
  have hbind : t.bindAll = t := by
    obtain ⟨nodes⟩ := t
    refine congrArg Tree.mk (Array.ext (by simp) fun i hi hi' => ?_)
    rw [Array.getElem_mapIdx]
    exact (h _ (Array.getElem_mem hi')).stays _ i
  have huses : t.uses = [] := by
    rw [uses, List.flatten_eq_nil_iff]
    intro ls hls
    obtain ⟨slot, hslot, rfl⟩ := List.mem_map.1 hls
    obtain ⟨id, n, hn, hc⟩ := exists_container hslot
    rw [(h n (Array.mem_of_getElem? hn)).containers] at hc
    exact absurd hc List.not_mem_nil
  rw [resolve_eq, hbind, huses]
  rfl

namespace Forest

theorem plainAttributes_plain {l : Locator} {j : Nat} {as : List (String × String)} {x : Attribute}
    (h : x ∈ plainAttributes l j as) : ∃ a, x = .plain a := by
  induction as generalizing j with
  | nil => exact absurd h List.not_mem_nil
  | cons a as ih =>
    rcases List.mem_cons.1 h with rfl | h
    · exact ⟨_, rfl⟩
    · exact ih h

theorem nodes_plain (f : Forest) (l : Locator) (parent id i : Nat) :
    ∀ n ∈ f.nodes l parent id i, n.IsPlain := by
  induction f generalizing parent id i with
  | nil => exact fun n hn => absurd hn List.not_mem_nil
  | text value behind ih =>
    rw [nodes, List.forall_mem_cons]
    exact ⟨⟨rfl, fun _ _ => rfl⟩, ih _ _ _⟩
  | element name attributes inside behind ihInside ihBehind =>
    rw [nodes, List.forall_mem_cons, List.forall_mem_append]
    refine ⟨⟨?_, fun g id' => ?_⟩, ihInside _ _ _, ihBehind _ _ _⟩
    · refine List.flatten_eq_nil_iff.2 fun cs hcs => ?_
      obtain ⟨x, hx, rfl⟩ := List.mem_map.1 hcs
      obtain ⟨a, rfl⟩ := plainAttributes_plain hx
      rfl
    · have hstays : (plainAttributes l (i + 1 + bytes name) attributes).toArray.map
          (Attribute.mapContainers g id' (some parent)) =
            (plainAttributes l (i + 1 + bytes name) attributes).toArray := by
        rw [List.map_toArray]
        refine congrArg List.toArray ((List.map_congr_left fun x hx => ?_).trans (List.map_id _))
        obtain ⟨a, rfl⟩ := plainAttributes_plain hx
        rfl
      simp only [Node.mapContainers, hstays]

end Forest

namespace Template

open Forest

/-- The units of a forest have no start tag behind which content is read in another way. -/
theorem units_plain {f : Forest} {parent : Option String} (hf : f.WellFormed parent) (l : Locator)
    (i : Nat) : Builder.Plain (f.units l i) := by
  induction f generalizing parent i with
  | nil => exact fun tag h => absurd h List.not_mem_nil
  | text value behind ih =>
    intro tag h
    rcases List.mem_cons.1 h with h | h
    · cases h
    · exact ih hf.2.2 _ tag h
  | element name attributes inside behind ihInside ihBehind =>
    obtain ⟨hname, -, -, -, hinside, hbehind⟩ := hf
    intro tag h
    rcases List.mem_cons.1 h with h | h
    · cases h
      show ElementClass.contentState? name.toLower = none
      rw [toLower_of_isName (isElementName_eq hname).1]
      exact (isElementName_eq hname).2.2.1
    · rcases List.mem_append.1 h with h | h
      · exact ihInside hinside _ tag h
      · rcases List.mem_cons.1 h with h | h
        · cases h
        · exact ihBehind hbehind _ tag h

/-- The outline of the printed text of a forest. -/
theorem builderOf_print {f : Forest} (text : String) (htext : text.toList = f.print)
    (hf : f.WellFormed none) (o : Options) :
    (builderOf text o).Outlined (locatorOf text o) (f.tree (locatorOf text o)) [] ∧
      (builderOf text o).lexer.diagnostics = #[] ∧
      (builderOf text o).assembler.diagnostics = #[] := by
  have hlocator : locatorOf text o = .ofChars f.print o.origin := by rw [locatorOf, htext]
  have hlexer : (startOf text o).lexer.Yields (f.tokens (locatorOf text o) 0) := by
    show (Lexer.ofChars text.toList (locatorOf text o) o.tracing).Yields _
    rw [htext, hlocator]
    exact Lexer.yields_print hf o.origin o.tracing
  obtain ⟨houtlines, hl, ha⟩ := Builder.run_outlines (runs_startOf text o)
    (Builder.tokensLeft_ofChars text.toList o.origin o.tracing) hlexer
    (Assembler.yields_units hf (locatorOf text o)) (units_plain hf _ 0)
  generalize hrun : Builder.run _ (startOf text o) = b at houtlines hl ha
  have hbuilder : builderOf text o = b.closeAll.placeRoot := by rw [← hrun]; rfl
  have hstart : (startOf text o).Outlined (locatorOf text o)
      (Tree.ofRoot ((locatorOf text o).extent (locatorOf text o).fullSpan)) [] :=
    ⟨rfl, rfl, rfl, rfl, rfl, rfl, rfl⟩
  rw [← List.append_nil (f.units _ 0)] at houtlines
  obtain ⟨b', h', lexer, assembler, heq⟩ := hstart.forest (p := Tree.root) hf
    ⟨rfl, Nat.one_pos, rfl⟩ houtlines
  have hb : b.Outlined (locatorOf text o) ((Tree.ofRoot ((locatorOf text o).extent
      (locatorOf text o).fullSpan)).grown Tree.root (f.tops 1)
        (f.nodes (locatorOf text o) Tree.root 1 0)) [] := by
    rw [heq]
    exact { h' with }
  obtain ⟨hplaced, hlexer, hassembler⟩ := Builder.Outlined.placeRoot hb
  rw [hbuilder, hlexer, hassembler]
  exact ⟨hplaced, hl, ha⟩

/-- The printed text of a forest is read as that forest: nothing is wrong in it, each node stands
where it was printed, and each element has its end tag. -/
theorem parse_print (f : Forest) (hf : f.WellFormed none) (o : Options) (reader : Script.Reader) :
    (parse (String.ofList f.print) o reader).diagnostics = #[] ∧
      (parse (String.ofList f.print) o reader).tree =
        f.tree (locatorOf (String.ofList f.print) o) := by
  obtain ⟨hbuilder, hlexer, hassembler⟩ :=
    builderOf_print (String.ofList f.print) String.toList_ofList hf o
  generalize String.ofList f.print = text at hbuilder hlexer hassembler
  have hprogress : progressOf text o reader = { tree := f.tree (locatorOf text o) } := by
    rw [progressOf_eq, hbuilder.directives, hbuilder.mustaches, hbuilder.tree]
    rfl
  have hplain : ∀ n ∈ (f.tree (locatorOf text o)).nodes, n.IsPlain := by
    intro n hn
    rcases List.mem_cons.1 (List.mem_toArray.1 hn) with rfl | hn
    · exact ⟨rfl, fun _ _ => rfl⟩
    · exact nodes_plain f _ _ _ _ n hn
  rw [parse_eq, hprogress, outlineOf_eq, hlexer, hassembler, hbuilder.diagnostics]
  exact ⟨by simp [inOrder], Tree.resolve_of_plain hplain⟩

/-- A list with an item and text behind it. -/
def listForest : Forest :=
  .element "ul" [("id", "a < b"), ("data-x1", "")] (.element "li" [] (.text "x \u00e9" .nil) .nil)
    (.text " y" .nil)

theorem parse_print_list : listForest.WellFormed none ∧
    String.ofList listForest.print =
      "<ul id=\"a < b\" data-x1=\"\"><li>x \u00e9</li></ul> y" ∧
    (parse (String.ofList listForest.print) {}).diagnostics = #[] ∧
    (parse (String.ofList listForest.print) {}).tree =
      listForest.tree (locatorOf (String.ofList listForest.print) {}) :=
  ⟨by decide +kernel, by decide +kernel, parse_print listForest (by decide +kernel) {} Script.parse⟩

end Template
end TemplateSyntax
