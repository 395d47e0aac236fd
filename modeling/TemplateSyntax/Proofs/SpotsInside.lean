import TemplateSyntax.Proofs.EmbeddedInside
import TemplateSyntax.Proofs.OutlineSpots

/-! # All offsets are offsets of the template

The pieces of the name of a directive stand in the name, and what is read of an embedded text stays in
its raw content.  So reading what is embedded puts no offset into the tree or the log that is none of
the template, and neither does resolving references. -/

namespace TemplateSyntax

open Spotted (Within spots)
open Text (byteLength)

variable {lo hi : Nat}

/-- All offsets are offsets of the text of a locator, or of its end. -/
abbrev Spotted.InText {α : Type} [Spotted α] (l : Locator) (x : α) : Prop :=
  Within (l.host 0) (l.host l.index.size) x

open Spotted (InText)

/-! ## Parts of nodes -/

theorem within_span {s : Span} :
    Within lo hi s ↔ (lo ≤ s.start ∧ s.start ≤ hi) ∧ lo ≤ s.stop ∧ s.stop ≤ hi := by
  simp [Within, spots]

theorem within_shapes {κ : Type} {xs : List (Shape κ)} :
    Within lo hi xs ↔ ∀ s ∈ xs.map Shape.span, Within lo hi s := by
  simp only [within_list, List.forall_mem_map]
  rfl

theorem within_filter {f : Filter} : Within lo hi f ↔ ∀ s ∈ f.spans, Within lo hi s := by
  have harguments : Within lo hi f.arguments ↔
      ∀ a ∈ f.arguments, Within lo hi a.expression.span := within_list
  simp only [Filter.spans, List.forall_mem_cons, List.forall_mem_map, ← harguments]
  simp only [Within, spots, List.forall_mem_append]
  tauto

/-- The spots of an expression are those of its spans. -/
theorem within_expression {e : Expression} : Within lo hi e ↔ ∀ s ∈ e.spans, Within lo hi s := by
  cases e with
  | plain e => exact (List.forall_mem_singleton (p := fun s : Span => Within lo hi s)).symm
  | iteration left right hasParens leftSpan span =>
    simp only [Expression.spans, List.forall_mem_cons, ← within_shapes]
    simp only [Within, spots, List.forall_mem_append]
    tauto
  | handler body span =>
    simp only [Expression.spans, List.forall_mem_cons, ← within_shapes]
    simp only [Within, spots, List.forall_mem_append]
    tauto
  | parameters params span =>
    simp only [Expression.spans, List.forall_mem_cons, ← within_shapes]
    simp only [Within, spots, List.forall_mem_append]
    tauto
  | filtered head filters span =>
    have hfilters : Within lo hi filters ↔ ∀ s ∈ filters.flatMap Filter.spans, Within lo hi s := by
      simp only [within_list, within_filter, List.mem_flatMap]
      constructor
      · rintro h s ⟨f, hf, hs⟩
        exact h f hf s hs
      · intro h f hf s hs
        exact h s ⟨f, hf, hs⟩
    simp only [Expression.spans, List.forall_mem_cons, ← hfilters]
    simp only [Within, spots, List.forall_mem_append]
    tauto

/-- So are those of a container. -/
theorem within_container {c : Container} :
    Within lo hi c ↔ (∀ s ∈ c.spans, Within lo hi s) ∧ Within lo hi c.extent := by
  have hexpression : Within lo hi c.expression ↔
      ∀ s ∈ (c.expression.map Expression.spans).getD [], Within lo hi s := by
    cases c.expression with
    | none => simp [Within, spots]
    | some e => exact within_option.trans (by simp [within_expression])
  have hreferences : Within lo hi c.references ↔
      ∀ s ∈ c.references.toList.map Reference.span, Within lo hi s := by
    simp only [within_array, List.forall_mem_map, Array.mem_toList_iff]
    rfl
  simp only [Container.spans, spansOf, List.forall_mem_append, ← hexpression, ← hreferences]
  simp only [Within, spots, List.forall_mem_append]

theorem within_key {k : DirectiveKey} : Within lo hi k ↔
    ((Within lo hi k.name ∧ Within lo hi k.argument) ∧ Within lo hi k.modifiers) ∧
      Within lo hi k.extent := by
  simp only [Within, spots, List.forall_mem_append]

theorem within_directive {d : Directive} : Within lo hi d ↔
    (Within lo hi d.key ∧ Within lo hi d.value) ∧ Within lo hi d.extent := by
  simp only [Within, spots, List.forall_mem_append]

theorem within_plainAttribute {a : PlainAttribute} : Within lo hi a ↔
    (Within lo hi a.key ∧ Within lo hi a.value) ∧ Within lo hi a.extent := by
  simp only [Within, spots, List.forall_mem_append]

theorem within_variable {x : Variable} :
    Within lo hi x ↔ Within lo hi x.span ∧ Within lo hi x.uses := by
  simp only [Within, spots, List.forall_mem_append]

namespace Template

variable {text : String} {o : Options} {reader : Script.Reader} {id : Nat} {extent : Extent}
  {code : List Char}

/-! ## Embedded texts -/

/-- The raw content of an embedded text stands in the template. -/
theorem Embeds.le_size {lo hi : Nat} (h : Embeds text o id extent code lo hi) :
    hi ≤ byteLength text.toList := by
  cases h with
  | value _ _ _ _ _ hcode =>
    obtain ⟨ps, -, hbetween, -⟩ := hcode
    exact hbetween.le_size
  | argument _ _ _ _ _ hcode => exact hcode.le_size
  | mustache _ _ _ hcode =>
    obtain ⟨ps, -, hbetween, -⟩ := hcode
    exact hbetween.le_size

theorem SpanIn.inText {s : Span} (h : SpanIn text o reader id extent s) :
    InText (locatorOf text o) s := by
  obtain ⟨code, lo, hi, hembeds, ⟨ps, hs⟩, hstays⟩ := h
  have hstart := hstays.start s ps hs
  have hstop := hstays.stop s ps hs
  have hle := hembeds.le_size
  refine within_span.2 ?_
  rw [locatorOf_size]
  simp only [Locator.host] at hstart hstop ⊢
  omega

theorem FaultIn.inText {offset : Nat} (h : FaultIn text o offset) :
    (locatorOf text o).host 0 ≤ offset ∧
      offset ≤ (locatorOf text o).host (locatorOf text o).index.size := by
  obtain ⟨id, extent, code, lo, hi, hembeds, hlo, hhi⟩ := h
  have hle := hembeds.le_size
  rw [locatorOf_size]
  simp only [Locator.host] at hlo hhi ⊢
  omega

/-- The offset lies in the name of an attribute, or at its end. -/
def InName (text : String) (o : Options) (offset : Nat) : Prop :=
  ∃ id e a, (outlineOf text o).tree.element? id = some e ∧ .plain a ∈ e.attributes ∧
    a.key.extent.span.start ≤ offset ∧ offset ≤ a.key.extent.span.stop

/-- The container of a text that was read lies where the text is embedded. -/
theorem ContainedIn.inText {x : Except ReadFailure Embedded}
    (h : ContainedIn text o reader id (.ofResult extent x))
    (he : InText (locatorOf text o) extent) :
    InText (locatorOf text o) (Contained.ofResult extent x).container := by
  refine within_container.2 ⟨fun s hs => (h.spans s hs).inText, ?_⟩
  cases x <;> exact he

theorem keyFault_not_mem_ofResult {offset : Nat} {fault : KeyFault}
    (x : Except ReadFailure Embedded) :
    .keyFault offset fault ∉ (Contained.ofResult extent x).faults := by
  cases x <;> simp [Contained.ofResult]

/-! ## Directives -/

section

variable {e : Element} {a : PlainAttribute}
variable (he : (outlineOf text o).tree.element? id = some e) (ha : .plain a ∈ e.attributes)
include he ha

theorem plainAttribute_inText : InText (locatorOf text o) a := by
  obtain ⟨n, hn, hne⟩ := Tree.element?_eq_some.1 he
  have hnode := within_tree.1 (builderOf_within text o) id n (outlineOf_tree text o ▸ hn)
  rw [within_node, hne] at hnode
  have hattributes := (within_element.1 hnode.1).1.1.1
  exact within_array.1 hattributes (.plain a) ha

/-- An index in the name of an attribute is one of the template. -/
theorem nameIndex_inName {i : Nat} (hi : i ≤ byteLength a.key.rawName.toList) :
    InName text o (a.key.extent.span.start + i) := by
  obtain ⟨lo, f, j, hspan, hname, hle, -⟩ := exists_name he ha
  have heq := hname.1
  refine ⟨id, e, a, he, ha, Nat.le_add_right _ _, ?_⟩
  rw [hspan]
  simp only [Locator.host]
  omega

omit he ha in
theorem InName.inText {offset : Nat} (h : InName text o offset) :
    (locatorOf text o).host 0 ≤ offset ∧
      offset ≤ (locatorOf text o).host (locatorOf text o).index.size := by
  obtain ⟨id, e, a, he, ha, hlo, hhi⟩ := h
  have hkey := within_extent.1 (within_plainAttribute.1 (plainAttribute_inText he ha)).1.1
  exact ⟨Nat.le_trans hkey.1.1 hlo, Nat.le_trans hhi hkey.2.2⟩

theorem nameIndex_inText {i : Nat} (hi : i ≤ byteLength a.key.rawName.toList) :
    (locatorOf text o).host 0 ≤ a.key.extent.span.start + i ∧
      a.key.extent.span.start + i ≤ (locatorOf text o).host (locatorOf text o).index.size :=
  (nameIndex_inName he ha hi).inText

theorem pieceExtent_inText (reader : Script.Reader) {p : KeyPiece}
    (hp : p.StandsIn a.key.rawName.toList) :
    InText (locatorOf text o) ((readingOf text o reader).pieceExtent a.key.extent.span.start p) :=
  within_extent.2 ⟨nameIndex_inText he ha (Nat.le_trans hp.le hp.le_size),
    nameIndex_inText he ha hp.le_size⟩

/-- The key of a directive lies where the name of the attribute stands, and so do its faults. -/
theorem key_inText (reader : Script.Reader) :
    InText (locatorOf text o) ((readingOf text o reader).key a.key).1 ∧
      ∀ offset fault, .keyFault offset fault ∈ ((readingOf text o reader).key a.key).2 →
        InName text o offset := by
  obtain ⟨hwritten, htail⟩ := KeyParts.ofName_standsIn a.key.rawName.toList
  have hkey := (within_plainAttribute.1 (plainAttribute_inText he ha)).1.1
  have hargument : InText (locatorOf text o) ((readingOf text o reader).key a.key).1.argument := by
    refine within_option.2 fun y hy => ?_
    obtain ⟨⟨x, faults⟩, hx, rfl⟩ := Option.map_eq_some_iff.1 hy
    obtain ⟨piece, hpiece, hread⟩ := Option.map_eq_some_iff.1 hx
    cases piece with
    | fixed p =>
      obtain ⟨rfl, -⟩ := Prod.mk.inj hread
      exact pieceExtent_inText he ha reader (htail.fixed p hpiece)
    | dynamic p =>
      obtain ⟨rfl, -⟩ := Prod.mk.inj hread
      exact (dynamicArgument_containedIn he ha hpiece).inText
        (pieceExtent_inText he ha reader (htail.dynamic p hpiece))
  have hmodifiers : InText (locatorOf text o) ((readingOf text o reader).key a.key).1.modifiers := by
    refine within_list.2 fun x hx => ?_
    rcases List.mem_append.1 hx with hx | hx
    · unfold Reading.impliedModifier at hx
      split at hx
      · obtain rfl := List.mem_singleton.1 hx
        exact pieceExtent_inText he ha reader hwritten
      · exact absurd hx List.not_mem_nil
    · obtain ⟨p, hp, rfl⟩ := List.mem_map.1 hx
      exact pieceExtent_inText he ha reader (htail.modifiers p hp)
  refine ⟨within_key.2 ⟨⟨⟨pieceExtent_inText he ha reader hwritten, hargument⟩, hmodifiers⟩, hkey⟩,
    fun offset fault hf => ?_⟩
  simp only [Reading.key, List.mem_append] at hf
  rcases hf with hf | hf
  · cases hpiece : (KeyParts.ofName a.key.rawName.toList).tail.argument with
    | none => simp [hpiece] at hf
    | some piece =>
      rw [hpiece] at hf
      cases piece with
      | fixed p => simp [Reading.argument] at hf
      | dynamic p => exact absurd hf (keyFault_not_mem_ofResult _)
  · obtain ⟨x, hx, heq⟩ := List.mem_map.1 hf
    obtain ⟨rfl, -⟩ := LogEntry.keyFault.inj heq
    exact nameIndex_inName he ha (htail.faults x hx)

/-- All offsets of a directive and its variables are offsets of the template, and the faults of its
key lie in its name. -/
theorem directive_inText (reader : Script.Reader) :
    InText (locatorOf text o) ((readingOf text o reader).directive a).directive ∧
      InText (locatorOf text o) ((readingOf text o reader).directive a).bindings ∧
      ∀ offset fault, .keyFault offset fault ∈ ((readingOf text o reader).directive a).log →
        InName text o offset := by
  obtain ⟨⟨-, hvalue⟩, hextent⟩ := within_plainAttribute.1 (plainAttribute_inText he ha)
  obtain ⟨hkey, hfaults⟩ := key_inText he ha reader
  refine ⟨within_directive.2 ⟨⟨hkey, within_option.2 fun c hc => ?_⟩, hextent⟩,
    within_array.2 fun x hx => within_variable.2 ⟨?_, ?_⟩, fun offset fault hf => ?_⟩
  · obtain ⟨x, hx, rfl⟩ := Option.map_eq_some_iff.1 hc
    obtain ⟨v, hv, rfl⟩ := Option.map_eq_some_iff.1 hx
    exact (value_containedIn he ha hv _).inText (within_option.1 hvalue v hv)
  · obtain ⟨place, hin⟩ := (directive_inside he ha reader).2.1 x hx
    exact hin.inText
  · rw [(Reading.directive_untied _ a).2 x hx]
    exact fun s hs => absurd hs List.not_mem_nil
  · simp only [Reading.directive, List.mem_append, List.mem_singleton] at hf
    rcases hf with (hf | hf) | hf
    · exact hfaults offset fault hf
    · exact LogEntry.noConfusion hf
    · cases hv : a.value with
      | none => simp [hv] at hf
      | some v =>
        rw [hv] at hf
        exact absurd hf (keyFault_not_mem_ofResult _)

end

/-! ## Reading what is embedded -/

namespace Progress

/-- All offsets in the tree are offsets of the template, and the faults of keys lie in names. -/
structure InText (text : String) (o : Options) (p : Progress) : Prop where
  tree : Spotted.InText (locatorOf text o) p.tree
  keyFaults : ∀ offset fault, .keyFault offset fault ∈ p.log → InName text o offset

/-- A directive is read. -/
theorem InText.readDirective {p : Progress} (h : p.InText text o)
    (hin : Inside text o reader p) (d : Nat × Nat) :
    (p.readDirective (readingOf text o reader) d).InText text o := by
  by_cases hread : ∃ a, ((p.tree.element? d.1).bind fun e => e.attributes[d.2]?) = some (.plain a)
  · obtain ⟨a, hread⟩ := hread
    obtain ⟨e, he, hk⟩ := Option.bind_eq_some_iff.1 hread
    obtain ⟨n, hn, hcontent⟩ := Tree.element?_eq_some.1 he
    obtain ⟨e', he', ha⟩ := (hin.nodes d.1 n hn).plain e a hcontent (Array.mem_of_getElem? hk)
    obtain ⟨hdirective, hbindings, hfaults⟩ := directive_inText he' ha reader
    rw [readDirective_eq _ p he hk]
    refine ⟨within_modifyElement h.tree fun e₁ he₁ hin₁ => ?_, fun offset fault hf => ?_⟩
    · obtain ⟨⟨⟨hattributes, hstart⟩, hend⟩, hdeclared⟩ := within_element.1 hin₁
      refine within_element.2 ⟨⟨⟨within_array.2 fun x hx => ?_, hstart⟩, hend⟩,
        within_array.2 fun x hx => ?_⟩
      · rcases mem_set! hx with rfl | hx
        · exact hdirective
        · exact within_array.1 hattributes x hx
      · rcases Array.mem_append.1 hx with hx | hx
        · exact within_array.1 hdeclared x hx
        · exact within_array.1 hbindings x hx
    · rcases mem_appendList.1 hf with hf | hf
      · exact h.keyFaults offset fault hf
      · exact hfaults offset fault hf
  · rw [readDirective_of_ne _ p fun x hx => hread ⟨x, hx⟩]
    exact ⟨h.tree, h.keyFaults⟩

theorem InText.readDirectives {p : Progress} (h : p.InText text o)
    (hin : Inside text o reader p) (ds : List (Nat × Nat)) :
    (ds.foldl (Progress.readDirective (readingOf text o reader)) p).InText text o := by
  induction ds generalizing p with
  | nil => exact h
  | cons d ds ih => exact ih (h.readDirective hin d) (hin.readDirective d)

/-- A mustache is read. -/
theorem InText.readMustache {p : Progress} (h : p.InText text o)
    (hin : Inside text o reader p) {m : PendingMustache}
    (hm : m ∈ (outlineOf text o).mustaches) :
    (p.readMustache (readingOf text o reader) m).InText text o := by
  unfold Progress.readMustache
  split
  · exact ⟨h.tree, h.keyFaults⟩
  · next n hn =>
    have hcontained := hin.mustache_containedIn hm hn
    refine ⟨within_modify h.tree fun x hx hx' => ?_, fun offset fault hf => ?_⟩
    · obtain rfl := Option.some.inj (hn.symm.trans hx)
      have hextent := (within_node.1 hx').2
      exact within_node.2 ⟨hcontained.inText hextent, hextent⟩
    · rcases mem_appendList.1 hf with hf | hf
      · exact h.keyFaults offset fault hf
      · exact absurd hf (keyFault_not_mem_ofResult _)

theorem InText.readMustaches {p : Progress} (h : p.InText text o)
    (hin : Inside text o reader p) {ms : List PendingMustache}
    (hms : ∀ m ∈ ms, m ∈ (outlineOf text o).mustaches) :
    (ms.foldl (Progress.readMustache (readingOf text o reader)) p).InText text o := by
  induction ms generalizing p with
  | nil => exact h
  | cons m ms ih =>
    have hm := hms m (by simp)
    exact ih (h.readMustache hin hm) (hin.readMustache hm) fun x hx => hms x (by simp [hx])

end Progress

theorem progressOf_inText (text : String) (o : Options) (reader : Script.Reader) :
    (progressOf text o reader).InText text o := by
  have hstart : Progress.InText text o { tree := (outlineOf text o).tree } := by
    refine ⟨?_, by simp⟩
    rw [outlineOf_tree]
    exact builderOf_within text o
  have hin := Progress.Inside.start text o reader
  unfold progressOf
  refine Progress.InText.readMustaches ?_ ?_ fun m hm => Array.mem_toList_iff.1 hm
  · exact hstart.readDirectives hin _
  · exact hin.readDirectives _

end Template

/-! ## Resolving references -/

theorem mem_modify {α : Type} {xs : Array α} {k : Nat} {f : α → α} {y : α}
    (h : y ∈ xs.modify k f) : y ∈ xs ∨ ∃ x ∈ xs, f x = y := by
  obtain ⟨i, hi, rfl⟩ := Array.getElem_of_mem h
  rw [Array.getElem_modify]
  split
  · exact .inr ⟨_, Array.getElem_mem _, rfl⟩
  · exact .inl (Array.getElem_mem _)

namespace Tree

variable {t : Tree}

theorem within_bind {scope : Option Nat} {c : Container} (h : Within lo hi c) :
    Within lo hi (t.bind scope c) := by
  rw [within_container] at h ⊢
  rw [Container.spans_bind]
  exact h

theorem within_mapDirective {d : Directive} {id : Nat} {parent : Option Nat}
    (h : Within lo hi d) : Within lo hi (d.mapContainers t.bind id parent) := by
  obtain ⟨⟨hkey, hvalue⟩, hextent⟩ := within_directive.1 h
  obtain ⟨⟨⟨hname, hargument⟩, hmodifiers⟩, hplace⟩ := within_key.1 hkey
  refine within_directive.2 ⟨⟨within_key.2 ⟨⟨⟨hname, ?_⟩, hmodifiers⟩, hplace⟩, ?_⟩, hextent⟩
  · refine within_option.2 fun y hy => ?_
    obtain ⟨x, hx, rfl⟩ := Option.map_eq_some_iff.1 hy
    have hin := within_option.1 hargument x hx
    cases x with
    | fixed name => exact hin
    | dynamic c => exact within_bind (c := c) hin
  · refine within_option.2 fun y hy => ?_
    obtain ⟨c, hc, rfl⟩ := Option.map_eq_some_iff.1 hy
    exact within_bind (within_option.1 hvalue c hc)

theorem within_mapContainers {n : Node} {id : Nat} (h : Within lo hi n) :
    Within lo hi (n.mapContainers t.bind id) := by
  obtain ⟨hcontent, hextent⟩ := within_node.1 h
  unfold Node.mapContainers
  split
  · next c hc =>
    rw [hc] at hcontent
    exact within_node.2 ⟨within_bind (c := c) hcontent, hextent⟩
  · next e he =>
    rw [he] at hcontent
    obtain ⟨⟨⟨hattributes, hstart⟩, hend⟩, hdeclared⟩ := within_element.1 hcontent
    refine within_node.2 ⟨within_element.2 ⟨⟨⟨?_, hstart⟩, hend⟩, hdeclared⟩, hextent⟩
    refine within_array.2 fun y hy => ?_
    obtain ⟨x, hx, rfl⟩ := Array.mem_map.1 hy
    have hin := within_array.1 hattributes x hx
    cases x with
    | plain a => exact hin
    | directive d => exact within_mapDirective (d := d) hin
  · exact h

/-- Binding references adds no offsets. -/
theorem within_bindAll (h : Within lo hi t) : Within lo hi t.bindAll := by
  rw [within_tree]
  intro id n hn
  rw [node?_bindAll] at hn
  obtain ⟨n₀, hn₀, rfl⟩ := Option.map_eq_some_iff.1 hn
  exact within_mapContainers (within_tree.1 h id n₀ hn₀)

theorem within_addUse (h : Within lo hi t) (v : VariableRef) {ident : Script.Ident}
    (hs : Within lo hi ident) : Within lo hi (t.addUse v ident) := by
  refine within_modifyElement h fun e _ he => ?_
  obtain ⟨hparts, hdeclared⟩ := within_element.1 he
  refine within_element.2 ⟨hparts, within_array.2 fun x hx => ?_⟩
  dsimp only at hx
  rcases mem_modify hx with hx | ⟨x₀, hx₀, rfl⟩
  · exact within_array.1 hdeclared x hx
  · obtain ⟨hspan, huses⟩ := within_variable.1 (within_array.1 hdeclared x₀ hx₀)
    refine within_variable.2 ⟨hspan, within_array.2 fun y hy => ?_⟩
    rcases Array.mem_push.1 hy with hy | rfl
    · exact within_array.1 huses y hy
    · exact hs

theorem within_addUses (h : Within lo hi t) {uses : List (VariableRef × Script.Ident)}
    (huses : ∀ x ∈ uses, Within lo hi x.2) : Within lo hi (t.addUses uses) := by
  induction uses generalizing t with
  | nil => exact h
  | cons x uses ih =>
    have hx := within_addUse h x.1 (huses x (by simp))
    exact ih hx fun y hy => huses y (by simp [hy])

/-- The containers of a node lie where the node does. -/
theorem within_holds {n : Node} {id : Nat} {scope : Option Nat} {c : Container}
    (h : Within lo hi n) (hc : n.Holds id scope c) : Within lo hi c := by
  have hdirective : ∀ {e : Element} {d : Directive}, n.content = .element e →
      .directive d ∈ e.attributes → Within lo hi d := by
    intro e d he hd
    have hcontent := (within_node.1 h).1
    rw [he] at hcontent
    exact within_array.1 (within_element.1 hcontent).1.1.1 (.directive d) hd
  cases hc with
  | mustache hn =>
    have hcontent := (within_node.1 h).1
    rw [hn] at hcontent
    exact hcontent
  | argument he hd hc =>
    have hkey := within_key.1 (within_directive.1 (hdirective he hd)).1.1
    exact within_option.1 hkey.1.1.2 _ hc
  | value he hd hc _ => exact within_option.1 (within_directive.1 (hdirective he hd)).1.2 c hc
  | declaring he hd hc _ => exact within_option.1 (within_directive.1 (hdirective he hd)).1.2 c hc

/-- The references that mean a variable are references of containers. -/
theorem within_uses (h : Within lo hi t) : ∀ x ∈ t.uses, Within lo hi x.2 := by
  intro x hx
  obtain ⟨uses, huses, hmem⟩ := List.mem_flatten.1 hx
  obtain ⟨s, hs, rfl⟩ := List.mem_map.1 huses
  obtain ⟨r, hr, hbound⟩ := List.mem_filterMap.1 hmem
  obtain ⟨v, -, rfl⟩ := Option.map_eq_some_iff.1 hbound
  obtain ⟨id, n, hn, hc⟩ := exists_container hs
  obtain ⟨scope, hholds⟩ : ∃ scope, n.Holds id scope s.container := n.mem_containers.1 hc
  have hcontainer := within_holds (within_tree.1 h id n hn) hholds
  refine (within_container.1 hcontainer).1 r.span ?_
  exact List.mem_append_right _ (List.mem_map_of_mem hr)

theorem within_resolve (h : Within lo hi t) : Within lo hi t.resolve := by
  rw [Tree.resolve_eq]
  exact within_addUses (within_bindAll h) (within_uses h)

end Tree

namespace Template

/-- The tokens and the comments of a template lie in it. -/
theorem tokens_inText (text : String) (o : Options) (reader : Script.Reader) :
    InText (locatorOf text o) (parse text o reader).tokens ∧
      InText (locatorOf text o) (parse text o reader).comments := by
  obtain ⟨taken, m, p, hstream, -, htokens, hcomments⟩ := exists_stream text o
  have hwithin := hstream.within (locatorOf_size text o)
  rw [parse_eq] at htokens hcomments ⊢
  constructor
  · refine within_array.2 fun t ht => hwithin t ?_
    rw [← Array.mem_toList_iff, htokens] at ht
    exact List.mem_of_mem_filter ht
  · refine within_array.2 fun t ht => hwithin t ?_
    rw [← Array.mem_toList_iff, hcomments] at ht
    exact List.mem_of_mem_filter ht

/-- What is wrong with an embedded text or the name of a directive is found there. -/
theorem offset_of_fault {l : Locator} {d : Diagnostic}
    (hd : d ∈ (progressOf text o reader).log.toList.filterMap (LogEntry.diagnostic? l)) :
    FaultIn text o d.offset ∨ InName text o d.offset := by
  obtain ⟨entry, hentry, heq⟩ := List.mem_filterMap.1 hd
  have hentry := Array.mem_toList_iff.1 hentry
  cases entry with
  | expressionFault offset fault =>
    obtain rfl := Option.some.inj heq
    exact .inl ((progressOf_inside text o reader).faults offset fault hentry)
  | keyFault offset fault =>
    obtain rfl := Option.some.inj heq
    exact .inr ((progressOf_inText text o reader).keyFaults offset fault hentry)
  | _ => simp [LogEntry.diagnostic?] at heq

theorem diagnostics_inText (text : String) (o : Options) (reader : Script.Reader) :
    InText (locatorOf text o) (parse text o reader).diagnostics := by
  have hin : ∀ {d : Diagnostic}, (locatorOf text o).host 0 ≤ d.offset ∧
      d.offset ≤ (locatorOf text o).host (locatorOf text o).index.size →
      InText (locatorOf text o) d := by
    intro d hd s hs
    obtain rfl := List.mem_singleton.1 hs
    exact hd
  refine within_array.2 fun d hd => hin ?_
  rw [parse_eq] at hd
  have hmem := (List.mergeSort_perm _ _).mem_iff.1 (List.mem_toArray.1 hd)
  rcases List.mem_append.1 hmem with hmem | hmem
  · exact (outlineOf_found text o (Array.mem_toList_iff.1 hmem)).offset
  · rcases offset_of_fault hmem with h | h
    · exact h.inText
    · exact h.inText

/-- All offsets of what is read of a template are offsets of the template. -/
theorem spots_inText (text : String) (o : Options) (reader : Script.Reader) :
    ∀ s ∈ (parse text o reader).spots, (locatorOf text o).host 0 ≤ s.offset ∧
      s.offset ≤ (locatorOf text o).host (locatorOf text o).index.size := by
  have htree : InText (locatorOf text o) (parse text o reader).tree := by
    rw [parse_tree]
    exact Tree.within_resolve (progressOf_inText text o reader).tree
  obtain ⟨htokens, hcomments⟩ := tokens_inText text o reader
  have hdiagnostics := diagnostics_inText text o reader
  intro s hs
  unfold Template.spots at hs
  simp only [List.mem_append] at hs
  rcases hs with ((hs | hs) | hs) | hs
  · exact htree s hs
  · exact htokens s hs
  · exact hcomments s hs
  · exact hdiagnostics s hs

end Template
end TemplateSyntax
