import TemplateSyntax.Proofs.EmbeddedContent
import TemplateSyntax.Proofs.OutlineReports
import TemplateSyntax.Proofs.ReferencesBound

/-! # Embedded code stays in its place

Whatever places a reader of scripts reports, right or wrong, the spans that come out of an embedded
text lie in its raw content.  Reading directives and mustaches puts only such spans into the tree,
and only faults at such places into the log; resolving the tree changes none of them. -/

namespace TemplateSyntax

open Text (byteLength)

variable {l : Locator} {lo hi : Nat} {f : Fragment} {s : Span} {ps : List Span}

theorem mem_appendList {α : Type} {xs : Array α} {ys : List α} {x : α} :
    x ∈ xs ++ ys ↔ x ∈ xs ∨ x ∈ ys := by
  rw [← Array.mem_toList_iff, Array.toList_appendList, List.mem_append, Array.mem_toList_iff]

/-- The spans of the expression and the references in a container. -/
def Container.spans (c : Container) : List Span := spansOf c.expression c.references.toList

namespace Fragment

/-- All spans that come out of the fragment lie between two indices of the template, and are proper
ranges if the spans that they are made of are. -/
structure StaysIn (f : Fragment) (l : Locator) (lo hi : Nat) : Prop where
  start : ∀ s ps, f.Yields s ps → l.host lo ≤ s.start ∧ s.start ≤ l.host hi
  stop : ∀ s ps, f.Yields s ps → l.host lo ≤ s.stop ∧ s.stop ≤ l.host hi
  ordered : ∀ s ps, f.Yields s ps → byteLength f.code < Offset.limit →
    (∀ p ∈ ps, p.start ≤ p.stop) → s.start ≤ s.stop

theorem Yields.bounds (h : f.Yields s ps) (hm : f.MapsInto l lo hi) :
    (l.host lo ≤ s.start ∧ s.start ≤ l.host hi) ∧ l.host lo ≤ s.stop ∧ s.stop ≤ l.host hi := by
  induction h with
  | @text i j hij hj => exact ⟨hm i (Nat.le_trans hij hj), hm j hj⟩
  | @moved w p hw =>
    obtain ⟨i, hi, hstart⟩ := hw.host p.start
    obtain ⟨j, hj, hstop⟩ := hw.host p.stop
    have h1 := hm i hi
    have h2 := hm j hj
    rw [← hstart] at h1
    rw [← hstop] at h2
    exact ⟨h1, h2⟩
  | cover _ _ ihs iht =>
    simp only [Span.cover]
    omega

theorem Yields.ordered (h : f.Yields s ps)
    (hmono : ∀ i j, i ≤ j → j ≤ byteLength f.code → f.map.offset i ≤ f.map.offset j)
    (hp : ∀ p ∈ ps, p.start ≤ p.stop) : s.start ≤ s.stop := by
  induction h with
  | @text i j hij hj => exact hmono i j hij hj
  | @moved w p hw =>
    have hle : p.start ≤ p.stop := hp p (by simp)
    obtain ⟨start, hin, hoffset⟩ := hw.offset
    show w.host p.start ≤ w.host p.stop
    rw [w.host_eq, w.host_eq, hoffset, hoffset]
    have hhi : w.hi = w.lo + byteLength w.fragment.code := rfl
    exact hmono _ _ (by omega) (by omega)
  | cover _ _ ihs iht =>
    rw [List.forall_mem_append] at hp
    have h1 := ihs hp.1
    have h2 := iht hp.2
    simp only [Span.cover]
    omega

end Fragment

namespace Template

variable {text : String} {o : Options} {reader : Script.Reader} {id : Nat} {extent : Extent}
  {code : List Char}

/-- The span comes out of a text that is embedded in the node `id` at `extent`, and nothing that
comes out of this text lies outside its raw content. -/
def SpanIn (text : String) (o : Options) (reader : Script.Reader) (id : Nat) (extent : Extent)
    (s : Span) : Prop :=
  ∃ code lo hi, Embeds text o id extent code lo hi ∧ (fragmentAt text o reader code lo).Has s ∧
    (fragmentAt text o reader code lo).StaysIn (locatorOf text o) lo hi

/-- The offset lies in the raw content of an embedded text. -/
def FaultIn (text : String) (o : Options) (offset : Nat) : Prop :=
  ∃ id extent code lo hi, Embeds text o id extent code lo hi ∧
    (locatorOf text o).host lo ≤ offset ∧ offset ≤ (locatorOf text o).host hi

theorem EmbedsAt.staysIn (h : EmbedsAt text o reader id extent code lo hi) :
    (fragmentAt text o reader code lo).StaysIn (locatorOf text o) lo hi where
  start _ _ hs := (hs.bounds h.mapped).1
  stop _ _ hs := (hs.bounds h.mapped).2
  ordered s ps hs hfit hp := by
    refine hs.ordered (fun i j hij hj => ?_) hp
    rw [fragmentAt_map]
    exact OffsetMap.offset_mono (builderOf text o).lexer.sortedGaps_spec.1 hij
      (Nat.lt_of_le_of_lt hj hfit)

theorem EmbedsAt.spanIn (h : EmbedsAt text o reader id extent code lo hi)
    (hs : (fragmentAt text o reader code lo).Has s) : SpanIn text o reader id extent s :=
  ⟨code, lo, hi, h.embeds, hs, h.staysIn⟩

/-! ## Directives -/

/-- What was read into a container lies in the raw content of an embedded text. -/
structure ContainedIn (text : String) (o : Options) (reader : Script.Reader) (id : Nat)
    (c : Contained) : Prop where
  spans : ∀ s ∈ c.container.spans, SpanIn text o reader id c.container.extent s
  bindings : ∀ x ∈ c.bindings, ∃ extent, SpanIn text o reader id extent x.span
  faults : ∀ offset fault, .expressionFault offset fault ∈ c.faults → FaultIn text o offset

theorem EmbedsAt.containedIn (h : EmbedsAt text o reader id extent code lo hi)
    {x : Except ReadFailure Embedded} (hx : (fragmentAt text o reader code lo).Sound
      (fragmentAt text o reader code lo).Gives x) :
    ContainedIn text o reader id (.ofResult extent x) := by
  cases x with
  | ok e =>
    refine ⟨fun s hs => h.spanIn (hx s ?_), fun v hv => ⟨extent, h.spanIn (hx v.span ?_)⟩, ?_⟩
    · exact List.mem_append_left _ hs
    · exact List.mem_append_right _ (List.mem_map_of_mem (Array.mem_toList_iff.2 hv))
    · intro offset fault hf
      simp [Contained.ofResult] at hf
  | error e =>
    refine ⟨by simp [Contained.ofResult, Container.spans, spansOf],
      by simp [Contained.ofResult], fun offset fault hf => ?_⟩
    obtain ⟨i, hi, hoffset⟩ := hx
    obtain ⟨rfl, -⟩ := LogEntry.expressionFault.inj (List.mem_singleton.1 hf)
    rw [hoffset]
    exact ⟨id, extent, code, _, _, h.embeds, h.mapped i hi⟩

section
variable {e : Element} {a : PlainAttribute}
variable (he : (outlineOf text o).tree.element? id = some e) (ha : .plain a ∈ e.attributes)
include he ha

theorem value_containedIn {v : Literal} (hv : a.value = some v) (key : DirectiveKey) :
    ContainedIn text o reader id ((readingOf text o reader).value key v) := by
  obtain ⟨lo, hi, hat, hstart⟩ := embedsAt_value reader he ha hv
  unfold Reading.value
  rw [hstart]
  exact hat.containedIn (Reading.readValue_sound _ key _)

theorem dynamicArgument_containedIn {p : KeyPiece}
    (hp : (KeyParts.ofName a.key.rawName.toList).tail.argument = some (.dynamic p)) :
    ContainedIn text o reader id
      ((readingOf text o reader).dynamicArgument a.key.extent.span.start p) := by
  obtain ⟨lo, hi, hat, hstart⟩ := embedsAt_argument reader he ha hp
  unfold Reading.dynamicArgument
  dsimp only
  rw [hstart]
  exact hat.containedIn (Fragment.readExpression_sound _ false)

/-- The containers, variables and faults of a directive. -/
theorem directive_inside (reader : Script.Reader) :
    (∀ c ∈ ((readingOf text o reader).directive a).directive.containers, ∀ s ∈ c.spans,
      SpanIn text o reader id c.extent s) ∧
    (∀ x ∈ ((readingOf text o reader).directive a).bindings,
      ∃ extent, SpanIn text o reader id extent x.span) ∧
    ∀ offset fault, .expressionFault offset fault ∈
      ((readingOf text o reader).directive a).log → FaultIn text o offset := by
  refine ⟨fun c hc => ?_, fun x hx => ?_, fun offset fault hf => ?_⟩
  · unfold Directive.containers at hc
    rcases List.mem_append.1 hc with hc | hc
    · split at hc
      · next c' hargument =>
        obtain rfl := List.mem_singleton.1 hc
        obtain ⟨⟨x, faults⟩, hx, hcontainer⟩ := Option.map_eq_some_iff.1 hargument
        obtain ⟨piece, hpiece, hread⟩ := Option.map_eq_some_iff.1 hx
        cases piece with
        | fixed p =>
          obtain ⟨rfl, -⟩ := Prod.mk.inj hread
          simp at hcontainer
        | dynamic p =>
          obtain ⟨rfl, -⟩ := Prod.mk.inj hread
          obtain rfl := DirectiveArgument.dynamic.inj hcontainer
          exact (dynamicArgument_containedIn he ha hpiece).spans
      · simp at hc
    · obtain ⟨x, hx, rfl⟩ := Option.map_eq_some_iff.1 (Option.mem_toList.1 hc)
      obtain ⟨v, hv, rfl⟩ := Option.map_eq_some_iff.1 hx
      exact (value_containedIn he ha hv _).spans
  · simp only [Reading.directive] at hx
    cases hv : a.value with
    | none => simp [hv] at hx
    | some v =>
      rw [hv] at hx
      exact (value_containedIn he ha hv _).bindings x hx
  · simp only [Reading.directive, Reading.key, List.mem_append, List.mem_singleton] at hf
    rcases hf with ((hf | hf) | hf) | hf
    · cases hpiece : (KeyParts.ofName a.key.rawName.toList).tail.argument with
      | none => simp [hpiece] at hf
      | some piece =>
        rw [hpiece] at hf
        cases piece with
        | fixed p => simp [Reading.argument] at hf
        | dynamic p => exact (dynamicArgument_containedIn he ha hpiece).faults offset fault hf
    · obtain ⟨x, -, hx⟩ := List.mem_map.1 hf
      simp at hx
    · simp at hf
    · cases hv : a.value with
      | none => simp [hv] at hf
      | some v =>
        rw [hv] at hf
        exact (value_containedIn he ha hv _).faults offset fault hf

end

/-! ## Nodes -/

/-- What has been read into a node lies in the raw contents of texts that are embedded in it, and
what is left to be read is that of the outline. -/
structure NodeIn (text : String) (o : Options) (reader : Script.Reader) (id : Nat) (n : Node) :
    Prop where
  containers : ∀ c ∈ n.containers, ∀ s ∈ c.spans, SpanIn text o reader id c.extent s
  declared : ∀ e, n.content = .element e → ∀ x ∈ e.bindings,
    ∃ extent, SpanIn text o reader id extent x.span
  plain : ∀ e a, n.content = .element e → .plain a ∈ e.attributes →
    ∃ e', (outlineOf text o).tree.element? id = some e' ∧ .plain a ∈ e'.attributes
  place : ∃ n', (outlineOf text o).tree.node? id = some n' ∧ n'.extent = n.extent

/-- A directive is read in the place of an attribute. -/
theorem NodeIn.setDirective {n : Node} {e : Element} {a : PlainAttribute} {k : Nat}
    (h : NodeIn text o reader id n) (he : n.content = .element e)
    (hk : e.attributes[k]? = some (.plain a)) :
    NodeIn text o reader id { n with
      content := .element { e with
        attributes := e.attributes.set! k
          (.directive ((readingOf text o reader).directive a).directive)
        bindings := e.bindings ++ ((readingOf text o reader).directive a).bindings } } := by
  obtain ⟨e', he', ha⟩ := h.plain e a he (Array.mem_of_getElem? hk)
  obtain ⟨hcontainers, hdeclared, -⟩ := directive_inside he' ha reader
  refine ⟨fun c hc => ?_, fun e₁ heq x hx => ?_, fun e₁ b heq hb => ?_, h.place⟩
  · obtain ⟨cs, hcs, hmem⟩ := List.mem_flatten.1 hc
    obtain ⟨x, hx, rfl⟩ := List.mem_map.1 hcs
    rcases mem_set! (Array.mem_toList_iff.1 hx) with rfl | hx
    · exact hcontainers c hmem
    · refine h.containers c ?_
      unfold Node.containers
      rw [he]
      exact List.mem_flatten.2
        ⟨x.containers, List.mem_map_of_mem (Array.mem_toList_iff.2 hx), hmem⟩
  · obtain rfl := NodeContent.element.inj heq
    rcases Array.mem_append.1 hx with hx | hx
    · exact h.declared e he x hx
    · exact hdeclared x hx
  · obtain rfl := NodeContent.element.inj heq
    rcases mem_set! hb with hb | hb
    · exact Attribute.noConfusion hb
    · exact h.plain e b he hb

namespace Progress

/-- What has been read so far lies in the raw contents of embedded texts. -/
structure Inside (text : String) (o : Options) (reader : Script.Reader) (p : Progress) : Prop where
  nodes : ∀ id n, p.tree.node? id = some n → NodeIn text o reader id n
  faults : ∀ offset fault, .expressionFault offset fault ∈ p.log → FaultIn text o offset

theorem Inside.start (text : String) (o : Options) (reader : Script.Reader) :
    Inside text o reader { tree := (outlineOf text o).tree } := by
  obtain ⟨taken, hwhole⟩ := builderOf_whole text o
  refine ⟨fun id n hn => ?_, by simp⟩
  have hn' : (builderOf text o).tree.node? id = some n := outlineOf_tree text o ▸ hn
  have helement : ∀ {e : Element}, n.content = .element e →
      (builderOf text o).tree.element? id = some e := by
    intro e he
    rw [Tree.element?_eq hn', Node.element?, he]
  have hplain : ∀ {e : Element} {d : Directive}, n.content = .element e →
      .directive d ∉ e.attributes := by
    intro e d he hd
    obtain ⟨ns, y, hy, -⟩ := hwhole.attributes id e (helement he) _ hd
    exact Attribute.noConfusion hy
  refine ⟨fun c hc s hs => ?_, fun e he x hx => ?_, fun e a he ha => ?_, ⟨n, hn, rfl⟩⟩
  · obtain ⟨scope, hholds⟩ : ∃ scope, n.Holds id scope c := n.mem_containers.1 hc
    cases hholds with
    | mustache hcontent =>
      obtain ⟨hexpression, hreferences⟩ := (builderOf_unread text o id n hn').mustache c hcontent
      simp [Container.spans, spansOf, hexpression, hreferences] at hs
    | argument he hd _ => exact absurd hd (hplain he)
    | value he hd _ _ => exact absurd hd (hplain he)
    | declaring he hd _ _ => exact absurd hd (hplain he)
  · simp [(builderOf_unread text o id n hn').bindings e he] at hx
  · exact ⟨e, outlineOf_tree text o ▸ helement he, ha⟩

/-- A directive is read. -/
theorem Inside.readDirective {p : Progress} (h : Inside text o reader p) (d : Nat × Nat) :
    Inside text o reader (p.readDirective (readingOf text o reader) d) := by
  by_cases hread : ∃ a, ((p.tree.element? d.1).bind fun e => e.attributes[d.2]?) = some (.plain a)
  · obtain ⟨a, hread⟩ := hread
    obtain ⟨e, he, hk⟩ := Option.bind_eq_some_iff.1 hread
    obtain ⟨n, hn, hcontent⟩ := Tree.element?_eq_some.1 he
    rw [readDirective_eq _ p he hk]
    refine ⟨Tree.forall_modify h.nodes fun x hx hin => ?_, fun offset fault hf => ?_⟩
    · obtain rfl := Option.some.inj (hn.symm.trans hx)
      unfold Node.mapElement
      rw [hcontent]
      exact hin.setDirective hcontent hk
    · rcases mem_appendList.1 hf with hf | hf
      · exact h.faults offset fault hf
      · obtain ⟨e', he', ha⟩ := (h.nodes d.1 n hn).plain e a hcontent (Array.mem_of_getElem? hk)
        exact (directive_inside he' ha reader).2.2 offset fault hf
  · rw [readDirective_of_ne _ p fun x hx => hread ⟨x, hx⟩]
    exact ⟨h.nodes, h.faults⟩

theorem Inside.readDirectives {p : Progress} (h : Inside text o reader p)
    (ds : List (Nat × Nat)) :
    Inside text o reader (ds.foldl (Progress.readDirective (readingOf text o reader)) p) := by
  induction ds generalizing p with
  | nil => exact h
  | cons d ds ih => exact ih (h.readDirective d)

/-- The text of a mustache is embedded in its node. -/
theorem Inside.mustache_containedIn {p : Progress} (h : Inside text o reader p)
    {m : PendingMustache} (hm : m ∈ (outlineOf text o).mustaches) {n : Node}
    (hn : p.tree.node? m.node = some n) :
    ContainedIn text o reader m.node
      ((readingOf text o reader).mustache m.value m.start n.extent) := by
  obtain ⟨n', hn', hextent⟩ := (h.nodes m.node n hn).place
  obtain ⟨lo, hi, hat, hstart⟩ := embedsAt_mustache reader hm hn'
  unfold Reading.mustache
  rw [hstart, ← hextent]
  exact hat.containedIn (Fragment.readExpression_sound _ _)

/-- A mustache is read. -/
theorem Inside.readMustache {p : Progress} (h : Inside text o reader p) {m : PendingMustache}
    (hm : m ∈ (outlineOf text o).mustaches) :
    Inside text o reader (p.readMustache (readingOf text o reader) m) := by
  unfold Progress.readMustache
  split
  · exact ⟨h.nodes, h.faults⟩
  · next n hn =>
    have hin := h.mustache_containedIn hm hn
    refine ⟨Tree.forall_modify h.nodes fun x hx hnode => ?_, fun offset fault hf => ?_⟩
    · refine ⟨fun c hc => ?_, by simp, by simp, hnode.place⟩
      obtain rfl := List.mem_singleton.1 hc
      exact hin.spans
    · rcases mem_appendList.1 hf with hf | hf
      · exact h.faults offset fault hf
      · exact hin.faults offset fault hf

theorem Inside.readMustaches {p : Progress} (h : Inside text o reader p)
    {ms : List PendingMustache} (hms : ∀ m ∈ ms, m ∈ (outlineOf text o).mustaches) :
    Inside text o reader (ms.foldl (Progress.readMustache (readingOf text o reader)) p) := by
  induction ms generalizing p with
  | nil => exact h
  | cons m ms ih =>
    exact ih (h.readMustache (hms m (by simp))) fun x hx => hms x (by simp [hx])

end Progress

theorem progressOf_inside (text : String) (o : Options) (reader : Script.Reader) :
    Progress.Inside text o reader (progressOf text o reader) := by
  unfold progressOf
  refine Progress.Inside.readMustaches ?_ fun m hm => Array.mem_toList_iff.1 hm
  unfold directivesRead
  exact (Progress.Inside.start text o reader).readDirectives _

end Template

/-! ## Resolved trees -/

theorem Container.spans_bind (t : Tree) (scope : Option Nat) (c : Container) :
    (t.bind scope c).spans = c.spans := by
  simp [Container.spans, spansOf, Tree.bind, Function.comp_def]

namespace Template

/-! ## The whole template -/

end Template
end TemplateSyntax
