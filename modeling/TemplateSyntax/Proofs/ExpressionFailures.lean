import Mathlib.Data.List.Nodup
import TemplateSyntax.Proofs.EmbeddedTexts
import TemplateSyntax.Proofs.OutlineReports
import TemplateSyntax.Proofs.PreHonoured
import TemplateSyntax.Proofs.ReferencesBound

/-! # Expressions that fail

Each embedded text that cannot be read leaves its container empty and one diagnostic, and there are no other
diagnostics of expressions.  A text with nothing to read leaves its container empty and no diagnostic: it is
blank, or a list of no parameters.  The directive around a text is there in any case. -/

namespace TemplateSyntax

/-! ## Texts with nothing to read -/

namespace Fragment

variable {f : Fragment}

/-- The fragment is a list of no parameters. -/
def HasNoParameters (f : Fragment) : Prop :=
  ∃ body statements, (⟨f, .parameters⟩ : Wrapped).parse = .ok body ∧
    wrappedFunction? body = some (.mk [] statements)

/-- What is read, if something is, is as said. -/
def Returns (P : Embedded → Prop) (r : Except ReadFailure Embedded) : Prop := ∀ e, r = .ok e → P e

namespace Returns

variable {P : Embedded → Prop}

theorem failure (x : ReadFailure) : Returns P (throw x) := fun _ h => nomatch h

theorem value {e : Embedded} (h : P e) : Returns P (pure e) := by
  intro e' heq
  obtain rfl := Except.ok.inj heq
  exact h

/-- What is read last counts. -/
theorem bind {α : Type} {x : Except ReadFailure α} {k : α → Except ReadFailure Embedded}
    (h : ∀ a, Returns P (k a)) : Returns P (x >>= k) := by
  cases x with
  | error f => exact failure f
  | ok a => exact h a

end Returns

/-- If something is read, it is an expression. -/
def GivesExpression (r : Except ReadFailure Embedded) : Prop :=
  ∀ e, r = .ok e → e.expression.isSome = true

namespace GivesExpression

theorem failure (x : ReadFailure) : GivesExpression (throw x) := Returns.failure x

theorem value {e : Embedded} (h : e.expression.isSome = true) : GivesExpression (pure e) := Returns.value h

theorem bind {α : Type} {x : Except ReadFailure α} {k : α → Except ReadFailure Embedded}
    (h : ∀ a, GivesExpression (k a)) : GivesExpression (x >>= k) := Returns.bind h

end GivesExpression

theorem readPlain_gives (h : ¬ f.isBlank = true) : GivesExpression f.readPlain := by
  unfold readPlain
  rw [if_neg h]
  exact .bind fun _ => .value rfl

theorem readExpression_gives (h : ¬ f.isBlank = true) (filters : Bool) :
    GivesExpression (f.readExpression filters) := by
  unfold readExpression
  rw [if_neg h]
  split
  · exact .bind fun _ => .bind fun _ => .value rfl
  · exact readPlain_gives h

theorem readIteration_gives (h : ¬ f.isBlank = true) : GivesExpression f.readIteration := by
  unfold readIteration
  rw [if_neg h]
  split
  · exact .failure _
  · dsimp only
    split
    · exact .failure _
    · exact .bind fun _ => .bind fun _ => .value rfl

theorem readHandler_gives (h : ¬ f.isBlank = true) : GivesExpression f.readHandler := by
  unfold readHandler
  rw [if_neg h]
  dsimp only
  split
  · exact readPlain_gives h
  · unfold readStatements
    refine .bind fun body => ?_
    split
    · exact .value rfl
    · exact .failure _

/-- Parameters that are read are an expression, or there are none. -/
theorem readParameters_cases (h : ¬ f.isBlank = true) :
    f.HasNoParameters ∧ f.readParameters = .ok {} ∨
      ¬ f.HasNoParameters ∧ GivesExpression f.readParameters := by
  unfold HasNoParameters readParameters
  rw [if_neg h]
  cases Wrapped.parse ⟨f, .parameters⟩ with
  | error x =>
    refine .inr ⟨?_, .failure x⟩
    rintro ⟨_, _, heq, -⟩
    exact nomatch heq
  | ok body =>
    have hread : ∀ k : List Script.Stmt → Except ReadFailure Embedded,
        (Except.ok body >>= k) = k body := fun _ => rfl
    rw [hread]
    cases hf : wrappedFunction? body with
    | none =>
      refine .inr ⟨?_, .failure _⟩
      rintro ⟨body', statements, heq, hmk⟩
      obtain rfl := Except.ok.inj heq
      exact nomatch hf.symm.trans hmk
    | some g =>
      obtain ⟨params, statements⟩ := g
      cases params with
      | nil => exact .inl ⟨⟨body, statements, rfl, hf⟩, rfl⟩
      | cons param params =>
        refine .inr ⟨?_, .value rfl⟩
        rintro ⟨body', statements', heq, hmk⟩
        obtain rfl := Except.ok.inj heq
        exact nomatch hf.symm.trans hmk

theorem read_of_isBlank (h : f.isBlank = true) (route : Route) : f.read route = .ok {} := by
  cases route with
  | expression filters => simp only [read, readExpression, h, if_true]; rfl
  | iteration => simp only [read, readIteration, h, if_true]; rfl
  | handler => simp only [read, readHandler, h, if_true]; rfl
  | parameters => simp only [read, readParameters, h, if_true]; rfl

end Fragment

namespace EmbeddedText

variable {x : EmbeddedText}

/-- There is nothing to read: the text is blank, or a list of no parameters. -/
def IsVoid (x : EmbeddedText) : Prop :=
  x.fragment.isBlank = true ∨ x.route = .parameters ∧ x.fragment.HasNoParameters

/-- A text with nothing to read gives nothing.  What is read of another one is an expression. -/
theorem outcome_cases (x : EmbeddedText) : x.IsVoid ∧ x.outcome = .ok {} ∨
    ¬ x.IsVoid ∧ Fragment.GivesExpression x.outcome := by
  unfold IsVoid outcome
  by_cases hblank : x.fragment.isBlank = true
  · exact .inl ⟨.inl hblank, Fragment.read_of_isBlank hblank _⟩
  · have hvoid : (x.fragment.isBlank = true ∨ x.route = .parameters ∧ x.fragment.HasNoParameters) ↔
        x.route = .parameters ∧ x.fragment.HasNoParameters := or_iff_right hblank
    rw [hvoid]
    cases x.route with
    | expression filters =>
      exact .inr ⟨nofun, Fragment.readExpression_gives hblank filters⟩
    | iteration => exact .inr ⟨nofun, Fragment.readIteration_gives hblank⟩
    | handler => exact .inr ⟨nofun, Fragment.readHandler_gives hblank⟩
    | parameters =>
      rcases Fragment.readParameters_cases hblank with ⟨hnone, hok⟩ | ⟨hsome, hgives⟩
      · exact .inl ⟨⟨rfl, hnone⟩, hok⟩
      · exact .inr ⟨fun h => hsome h.2, hgives⟩

end EmbeddedText

/-! ## Directives and mustaches -/

namespace Template.Progress

variable {r : Reading} {p : Progress} {m : PendingMustache} {ms : List PendingMustache} {id : Nat}
  {ds : List (Nat × Nat)}

/-- The log gets the failures of the texts of directives, in their order. -/
theorem readDirectives_failures (hd : ds.Nodup)
    (hplain : ∀ d ∈ ds, ∃ a, p.tree.attribute? d.1 d.2 = some (.plain a)) :
    (ds.foldl (readDirective r) p).log.toList.filterMap LogEntry.failure? =
      p.log.toList.filterMap LogEntry.failure? ++
        (ds.flatMap (r.textsIn p.tree)).filterMap EmbeddedText.failure? := by
  rw [readDirectives_log hd, List.filterMap_append, List.filterMap_flatMap, List.filterMap_flatMap]
  congr 1
  refine List.flatMap_congr fun d hmem => ?_
  obtain ⟨id, i⟩ := d
  obtain ⟨a, ha⟩ := hplain _ hmem
  rw [ha, r.textsIn_eq ha]
  exact Reading.directive_log

/-- The variables of an element are those that the texts of its values declare. -/
theorem readDirectives_declared (hd : ds.Nodup)
    (hplain : ∀ d ∈ ds, ∃ a, p.tree.attribute? d.1 d.2 = some (.plain a)) (id : Nat) :
    ((ds.foldl (readDirective r) p).tree.bindings? id).map Array.toList =
      (p.tree.bindings? id).map fun vs => vs.toList ++
        ((ds.flatMap (r.textsIn p.tree)).filter fun x => x.place.isValueIn id).flatMap
          EmbeddedText.declared := by
  rw [readDirectives_bindings? hd, List.filter_flatMap, List.flatMap_assoc]
  refine congrArg (fun declared => (p.tree.bindings? id).map fun vs => vs.toList ++ declared) ?_
  refine List.flatMap_congr fun d hmem => ?_
  obtain ⟨id', i⟩ := d
  obtain ⟨a, ha⟩ := hplain _ hmem
  rw [ha, r.textsIn_eq ha]
  split
  · next heq =>
    obtain rfl : id' = id := heq
    exact Reading.directive_bindings
  · next hne =>
    have hnone : (r.textsOf id' i a).filter (fun x => x.place.isValueIn id) = [] := by
      rw [List.filter_eq_nil_iff]
      intro x hx
      rcases Reading.place_of_mem_textsOf hx with heq | heq
      · rw [heq]
        exact Bool.false_ne_true
      · rw [heq]
        exact fun h => hne (beq_iff_eq.1 h)
    rw [hnone]
    rfl

theorem readMustache_element? (h : MustachesThere p.tree (m :: ms)) (id : Nat) :
    (p.readMustache r m).tree.element? id = p.tree.element? id := by
  obtain ⟨n, c, hn, hc⟩ := h m (List.mem_cons_self ..)
  rw [readMustache_eq r p hn, Tree.element?_eq_join, Tree.element?_eq_join]
  dsimp only
  rw [Tree.map_node?_modify]
  intro n' hn'
  obtain rfl := Option.some.inj (hn.symm.trans hn')
  simp [Node.element?, hc]

/-- The elements are not touched by the reading of mustaches. -/
theorem readMustaches_element? (h : MustachesThere p.tree ms) (id : Nat) :
    (ms.foldl (readMustache r) p).tree.element? id = p.tree.element? id := by
  induction ms generalizing p with
  | nil => rfl
  | cons m ms ih =>
    exact (ih (readMustache_spec (r := r) h).2.1).trans (readMustache_element? h id)

theorem readMustaches_node?_of_ne (h : MustachesThere p.tree ms)
    (hid : id ∉ ms.map PendingMustache.node) :
    (ms.foldl (readMustache r) p).tree.node? id = p.tree.node? id := by
  induction ms generalizing p with
  | nil => rfl
  | cons m ms ih =>
    obtain ⟨n, c, hn, hc⟩ := h m (List.mem_cons_self ..)
    rw [List.map_cons, List.mem_cons, not_or] at hid
    refine (ih (readMustache_spec (r := r) h).2.1 hid.2).trans ?_
    rw [readMustache_eq r p hn]
    exact Tree.node?_modify_of_ne (Ne.symm hid.1)

/-- Each mustache on record shows its text. -/
theorem readMustaches_mustache? (h : MustachesThere p.tree ms)
    (hd : (ms.map PendingMustache.node).Nodup) (hm : m ∈ ms) : ∃ n extent,
      (ms.foldl (readMustache r) p).tree.node? m.node = some n ∧
        n.content = .mustache (Reading.containerOf (r.mustacheText m) extent) := by
  induction ms generalizing p with
  | nil => simp at hm
  | cons m' ms ih =>
    obtain ⟨hnot, hnodup⟩ := List.nodup_cons.1 hd
    have hthere := (readMustache_spec (r := r) h).2.1
    rcases List.mem_cons.1 hm with rfl | hm
    · obtain ⟨n, c, hn, hc⟩ := h m (List.mem_cons_self ..)
      refine ⟨{ n with content := .mustache (Reading.containerOf (r.mustacheText m) n.extent) },
        n.extent, ?_, rfl⟩
      rw [List.foldl_cons, readMustaches_node?_of_ne hthere hnot, readMustache_eq r p hn]
      exact Tree.node?_modify_self hn
    · exact ih hthere hnodup hm

/-- The log gets the failures of the mustaches, in their order. -/
theorem readMustaches_log (h : MustachesThere p.tree ms) :
    (ms.foldl (readMustache r) p).log.toList.filterMap LogEntry.failure? =
      p.log.toList.filterMap LogEntry.failure? ++
        (ms.map r.mustacheText).filterMap EmbeddedText.failure? := by
  induction ms generalizing p with
  | nil => simp
  | cons m ms ih =>
    obtain ⟨n, c, hn, hc⟩ := h m (List.mem_cons_self ..)
    have hfaults : (r.mustache m.value m.start n.extent).faults.filterMap LogEntry.failure? =
        [r.mustacheText m].filterMap EmbeddedText.failure? :=
      (Reading.faults_ofResult (r.mustacheText m) n.extent).trans
        (Reading.failures_singleton _).symm
    rw [List.foldl_cons, ih (readMustache_spec (r := r) h).2.1, readMustache_eq r p hn]
    dsimp only
    rw [Array.toList_appendList, List.filterMap_append, hfaults, List.append_assoc,
      ← List.filterMap_append]
    rfl

/-- The failures of a whole reading are those of its texts, first the directives and then the mustaches. -/
theorem read_failures {t : Tree} (hd : ds.Nodup)
    (hplain : ∀ d ∈ ds, ∃ a, t.attribute? d.1 d.2 = some (.plain a))
    (h : MustachesThere (ds.foldl (readDirective r) { tree := t }).tree ms) :
    (ms.foldl (readMustache r) (ds.foldl (readDirective r) { tree := t })).log.toList.filterMap
        LogEntry.failure? =
      (ds.flatMap (r.textsIn t) ++ ms.map r.mustacheText).filterMap EmbeddedText.failure? := by
  rw [readMustaches_log h, readDirectives_failures hd hplain, List.filterMap_append]
  rfl

/-- The variables after a whole reading, where there was none before it. -/
theorem read_declared {t : Tree} (hd : ds.Nodup)
    (hplain : ∀ d ∈ ds, ∃ a, t.attribute? d.1 d.2 = some (.plain a))
    (h : MustachesThere (ds.foldl (readDirective r) { tree := t }).tree ms)
    (hnone : ∀ vs, t.bindings? id = some vs → vs = #[]) {vs : Array Variable}
    (hvs : (ms.foldl (readMustache r) (ds.foldl (readDirective r) { tree := t })).tree.bindings? id =
      some vs) :
    vs.toList = ((ds.flatMap (r.textsIn t) ++ ms.map r.mustacheText).filter
      fun x => x.place.isValueIn id).flatMap EmbeddedText.declared := by
  have hmustaches : (ms.map r.mustacheText).filter (fun x => x.place.isValueIn id) = [] := by
    rw [List.filter_eq_nil_iff]
    intro x hx
    obtain ⟨m, -, rfl⟩ := List.mem_map.1 hx
    exact Bool.false_ne_true
  have hdirectives := readDirectives_declared (p := { tree := t }) (r := r) hd hplain id
  rw [Tree.bindings?, readMustaches_element? h, ← Tree.bindings?] at hvs
  rw [hvs] at hdirectives
  obtain ⟨vs₀, hvs₀, heq⟩ := Option.map_eq_some_iff.1 hdirectives.symm
  obtain rfl := hnone vs₀ hvs₀
  rw [List.filter_append, hmustaches, List.append_nil]
  exact heq.symm

end Template.Progress

/-! ## Resolving -/

/-- A variable without the references to it. -/
def Variable.declaration (x : Variable) : Variable := { x with uses := #[] }

namespace Tree

variable (t : Tree)

theorem element?_resolve (id : Nat) : t.resolve.element? id = (t.node? id).bind fun n =>
    n.element?.map fun e => usedBy t.uses id
      { e with attributes := e.attributes.map (·.mapContainers t.bind id n.parent) } := by
  rw [element?, node?_resolve]
  cases t.node? id with
  | none => rfl
  | some n =>
    obtain ⟨content, parent, extent⟩ := n
    cases content <;> rfl

theorem attribute?_resolve (id i : Nat) : ∃ parent, t.resolve.attribute? id i =
    (t.attribute? id i).map (·.mapContainers t.bind id parent) := by
  rw [attribute?, attribute?, element?_resolve, element?]
  cases hn : t.node? id with
  | none => exact ⟨none, rfl⟩
  | some n =>
    refine ⟨n.parent, ?_⟩
    rw [Option.bind_some, Option.bind_some]
    cases n.element? with
    | none => rfl
    | some e =>
      show (e.attributes.map _)[i]? = (e.attributes[i]?).map _
      rw [Array.getElem?_map]

/-- Resolving binds the references of each container. -/
theorem containerAt?_resolve (place : Place) : ∃ scope,
    t.resolve.containerAt? place = (t.containerAt? place).map (t.bind scope) := by
  cases place with
  | mustache id =>
    rw [containerAt?, containerAt?, node?_resolve]
    cases hn : t.node? id with
    | none => exact ⟨none, rfl⟩
    | some n =>
      refine ⟨n.parent, ?_⟩
      obtain ⟨content, parent, extent⟩ := n
      cases content <;> rfl
  | argument id i =>
    obtain ⟨parent, hattribute⟩ := t.attribute?_resolve id i
    refine ⟨some id, ?_⟩
    rw [containerAt?, containerAt?, hattribute]
    cases t.attribute? id i with
    | none => rfl
    | some x =>
      cases x with
      | plain a => rfl
      | directive d =>
        obtain ⟨⟨name, argument, modifiers, kextent⟩, value, extent⟩ := d
        rcases argument with _ | (_ | _) <;> rfl
  | value id i =>
    obtain ⟨parent, hattribute⟩ := t.attribute?_resolve id i
    rw [containerAt?, containerAt?, hattribute]
    cases t.attribute? id i with
    | none => exact ⟨none, rfl⟩
    | some x =>
      cases x with
      | plain a => exact ⟨none, rfl⟩
      | directive d => exact ⟨d.valueScope id parent, rfl⟩

theorem bindings?_resolve (id : Nat) :
    (t.resolve.bindings? id).map (fun vs => vs.toList.map Variable.declaration) =
      (t.bindings? id).map fun vs => vs.toList.map Variable.declaration := by
  rw [bindings?, bindings?, element?_resolve, element?]
  cases t.node? id with
  | none => rfl
  | some n =>
    rw [Option.bind_some, Option.bind_some]
    cases n.element? with
    | none => rfl
    | some e =>
      refine congrArg some ?_
      apply List.ext_getElem?
      intro i
      simp only [usedBy, List.getElem?_map, Array.getElem?_toList, Array.getElem?_mapIdx,
        Option.map_map]
      rfl

end Tree

/-! ## Templates -/

/-- Whether the cause is an embedded expression. -/
def Cause.isExpression : Cause → Bool
  | .expression _ => true
  | _ => false

/-- The diagnostics of expressions are those of the failures in the log. -/
theorem LogEntry.filter_diagnostic? (l : Locator) (log : List LogEntry) :
    (log.filterMap (LogEntry.diagnostic? l)).filter (·.cause.isExpression) =
      (log.filterMap LogEntry.failure?).map fun f => l.diagnose (.expression f.fault) f.offset := by
  induction log with
  | nil => rfl
  | cons x log ih =>
    cases x with
    | expressionFault offset fault => exact congrArg (_ :: ·) ih
    | keyFault offset fault => exact ih
    | transition | pulled | interpolationOff | converting => exact ih

/-- The directive has the place and the name of an attribute, the modifiers and the argument in this name,
and a container for its value if there is one. -/
structure Directive.StandsFor (r : Reading) (a : PlainAttribute) (d : Directive) : Prop where
  extent : d.extent = a.extent
  key : d.key.extent = a.key.extent
  name : d.key.name = r.named a.key.extent.span.start (KeyParts.ofName a.key.rawName.toList).written
    (KeyParts.ofName a.key.rawName.toList).name
  modifiers : d.key.modifiers =
    r.impliedModifier a.key.extent.span.start (KeyParts.ofName a.key.rawName.toList) ++
      (KeyParts.ofName a.key.rawName.toList).tail.modifiers.map
        (r.identifier a.key.extent.span.start)
  argument : match (KeyParts.ofName a.key.rawName.toList).tail.argument with
    | none => d.key.argument = none
    | some (.fixed p) =>
      d.key.argument = some (.fixed (r.identifier a.key.extent.span.start p))
    | some (.dynamic p) => ∃ c, d.key.argument = some (.dynamic c) ∧
        c.extent = r.pieceExtent a.key.extent.span.start p
  value : d.value.map Container.extent = a.value.map Literal.extent

/-- What is read of an attribute stands for it, whatever comes of its texts. -/
theorem Reading.directive_standsFor (r : Reading) (a : PlainAttribute) :
    (r.directive a).directive.StandsFor r a where
  extent := rfl
  key := rfl
  name := rfl
  modifiers := rfl
  argument := by
    have hargument : (r.directive a).directive.key.argument =
        (KeyParts.ofName a.key.rawName.toList).tail.argument.map fun p =>
          (r.argument a.key.extent.span.start p).1 := key_argument
    rw [hargument]
    cases (KeyParts.ofName a.key.rawName.toList).tail.argument with
    | none => rfl
    | some p =>
      cases p with
      | fixed p => rfl
      | dynamic p =>
        exact ⟨_, rfl, containerOf_extent (r.argumentText 0 0 a p) _⟩
  value := by
    have hvalue : (r.directive a).directive.value =
        (a.value.map (r.value (r.key a.key).1)).map Contained.container := rfl
    rw [hvalue, Option.map_map, Option.map_map]
    cases a.value with
    | none => rfl
    | some v =>
      refine congrArg some ?_
      show (r.value (r.key a.key).1 v).container.extent = v.extent
      rw [value_eq 0 0]
      exact containerOf_extent _ _

theorem Directive.StandsFor.mapContainers {r : Reading} {a : PlainAttribute} {d : Directive}
    (h : d.StandsFor r a) {f : Option Nat → Container → Container}
    (hf : ∀ scope c, (f scope c).extent = c.extent) (id : Nat) (parent : Option Nat) :
    (d.mapContainers f id parent).StandsFor r a where
  extent := h.extent
  key := h.key
  name := h.name
  modifiers := h.modifiers
  argument := by
    have hargument := h.argument
    revert hargument
    split
    · next => exact fun hd => by rw [Directive.mapContainers, hd]; rfl
    · next p _ => exact fun hd => by rw [Directive.mapContainers, hd]; rfl
    · next p _ =>
      rintro ⟨c, hd, hc⟩
      refine ⟨f (some id) c, ?_, (hf _ c).trans hc⟩
      rw [Directive.mapContainers, hd]
      rfl
  value := by
    rw [← h.value]
    show (d.value.map _).map _ = _
    rw [Option.map_map]
    cases d.value with
    | none => rfl
    | some c => exact congrArg some (hf _ c)

namespace Template

variable (text : String) (o : Options) (reader : Script.Reader)

/-- The texts that are embedded in a template, in the order in which they are read. -/
def embeddedTexts : List EmbeddedText :=
  (outlineOf text o).directives.toList.flatMap
      ((readingOf text o reader).textsIn (outlineOf text o).tree) ++
    (outlineOf text o).mustaches.toList.map (readingOf text o reader).mustacheText

variable {text o reader} {id i : Nat}

theorem recorded (text : String) (o : Options) : (builderOf text o).draft.Recorded :=
  Builder.outline_recorded text.toList (locatorOf text o) o.tracing _

theorem directives_nodup (text : String) (o : Options) :
    (outlineOf text o).directives.toList.Nodup := by
  rw [outlineOf_directives]
  exact Builder.nodup_directives (recorded text o)

theorem mustaches_nodup (text : String) (o : Options) :
    ((outlineOf text o).mustaches.toList.map PendingMustache.node).Nodup := by
  rw [outlineOf_mustaches]
  exact Builder.nodup_mustaches (recorded text o)

/-- The attributes of the outline are as they were written. -/
theorem outlineOf_plain {x : Attribute} (h : (outlineOf text o).tree.attribute? id i = some x) :
    ∃ a, x = .plain a := by
  cases x with
  | plain a => exact ⟨a, rfl⟩
  | directive d =>
    obtain ⟨e, he, hx⟩ := Option.bind_eq_some_iff.1 h
    exact absurd ⟨e, d, he, hx⟩ (not_directiveAt_outline text o id i)

theorem exists_plain (h : (id, i) ∈ (outlineOf text o).directives) :
    ∃ a, (outlineOf text o).tree.attribute? id i = some (.plain a) := by
  obtain ⟨taken, hwhole⟩ := builderOf_whole text o
  rw [outlineOf_directives] at h
  obtain ⟨e, x, he, hx⟩ := hwhole.directives _ h
  have hattribute : (outlineOf text o).tree.attribute? id i = some x := by
    rw [Tree.attribute?, outlineOf_tree, he]
    exact hx
  obtain ⟨a, rfl⟩ := outlineOf_plain hattribute
  exact ⟨a, hattribute⟩

/-- The attributes before references are bound: those on record are directives. -/
theorem progressOf_attribute? (id i : Nat) : (progressOf text o reader).tree.attribute? id i =
    ((outlineOf text o).tree.attribute? id i).map fun x =>
      match x with
      | .plain a =>
        if (id, i) ∈ (outlineOf text o).directives.toList then
          .directive ((readingOf text o reader).directive a).directive
        else .plain a
      | .directive d => .directive d := by
  have hmustaches : (progressOf text o reader).tree.attribute? id i =
      (directivesRead text o reader).tree.attribute? id i := by
    rw [Tree.attribute?, Tree.attribute?]
    exact congrArg (Option.bind · _) (Progress.readMustaches_element? (mustachesThere text o) id)
  have hdirectives := Progress.readDirectives_attribute? (readingOf text o reader)
    (outlineOf text o).directives.toList { tree := (outlineOf text o).tree } id i
  rw [hmustaches]
  refine hdirectives.trans ?_
  dsimp only
  cases hx : (outlineOf text o).tree.attribute? id i with
  | none => split <;> rfl
  | some x =>
    obtain ⟨a, rfl⟩ := outlineOf_plain hx
    split
    · rfl
    · rfl

/-- A container that shows what a text came to, its references bound to variables. -/
def Shows (x : EmbeddedText) (c : Container) : Prop :=
  ∃ (t : Tree) (scope : Option Nat) (extent : Extent),
    c = t.bind scope (Reading.containerOf x extent)

/-- Before references are bound, each text has its container. -/
theorem progressOf_containerAt? {x : EmbeddedText} (hx : x ∈ embeddedTexts text o reader) :
    ∃ extent, (progressOf text o reader).tree.containerAt? x.place =
      some (Reading.containerOf x extent) := by
  rcases List.mem_append.1 hx with hx | hx
  · obtain ⟨⟨id, i⟩, hd, hx⟩ := List.mem_flatMap.1 hx
    obtain ⟨a, ha⟩ := exists_plain (by simpa using hd)
    have hattribute : (progressOf text o reader).tree.attribute? id i =
        some (.directive ((readingOf text o reader).directive a).directive) := by
      rw [progressOf_attribute?, ha]
      simp only [Option.map_some, if_pos hd]
    rw [Reading.textsIn_eq _ ha] at hx
    rcases List.mem_append.1 hx with hx | hx
    · simp only [Option.mem_toList, Option.map_eq_some_iff] at hx
      obtain ⟨p, hp, rfl⟩ := hx
      refine ⟨(readingOf text o reader).pieceExtent a.key.extent.span.start p,
        Tree.containerAt?_argument.2 ⟨_, hattribute, ?_⟩⟩
      rw [Reading.directive_argument? id i, hp]
      rfl
    · simp only [Option.mem_toList, Option.map_eq_some_iff] at hx
      obtain ⟨v, hv, rfl⟩ := hx
      refine ⟨v.extent, Tree.containerAt?_value.2 ⟨_, hattribute, ?_⟩⟩
      rw [Reading.directive_value? id i, hv]
      rfl
  · obtain ⟨m, hm, rfl⟩ := List.mem_map.1 hx
    obtain ⟨n, extent, hn, hc⟩ := Progress.readMustaches_mustache?
      (r := readingOf text o reader) (mustachesThere text o) (mustaches_nodup text o) hm
    exact ⟨extent, Tree.containerAt?_mustache.2 ⟨n, hn, hc⟩⟩

/-- Each text has its container in the template. -/
theorem parse_containerAt? {x : EmbeddedText} (hx : x ∈ embeddedTexts text o reader) :
    ∃ c, (parse text o reader).tree.containerAt? x.place = some c ∧ Shows x c := by
  obtain ⟨extent, hc⟩ := progressOf_containerAt? hx
  obtain ⟨scope, hresolve⟩ := (progressOf text o reader).tree.containerAt?_resolve x.place
  rw [parse_tree, hresolve, hc]
  exact ⟨_, rfl, _, scope, extent, rfl⟩

/-- And there are no others. -/
theorem exists_embeddedText {place : Place} {c : Container}
    (h : (parse text o reader).tree.containerAt? place = some c) :
    ∃ x ∈ embeddedTexts text o reader, x.place = place := by
  obtain ⟨scope, hresolve⟩ := (progressOf text o reader).tree.containerAt?_resolve place
  rw [parse_tree, hresolve] at h
  obtain ⟨c', hc, -⟩ := Option.map_eq_some_iff.1 h
  have hdirective : ∀ {id i : Nat} {x : Attribute}, (∀ a, x ≠ .plain a) →
      (progressOf text o reader).tree.attribute? id i = some x →
        ∃ a, (outlineOf text o).tree.attribute? id i = some (.plain a) ∧
          (id, i) ∈ (outlineOf text o).directives.toList ∧
            x = .directive ((readingOf text o reader).directive a).directive := by
    intro id i x hne hx
    rw [progressOf_attribute?] at hx
    obtain ⟨y, hy, heq⟩ := Option.map_eq_some_iff.1 hx
    obtain ⟨a, rfl⟩ := outlineOf_plain hy
    dsimp only at heq
    split at heq
    · next hmem => exact ⟨a, hy, hmem, heq.symm⟩
    · exact absurd heq.symm (hne a)
  cases place with
  | mustache id =>
    obtain ⟨n, hn, hm⟩ := Tree.containerAt?_mustache.1 hc
    have hmustache : (progressOf text o reader).tree.IsMustache id := ⟨n, c', hn, hm⟩
    have hface := (parse_face text o reader id 0).2
    rw [parse_tree, Tree.isMustache_iff_face, Tree.face?_resolve, ← Tree.isMustache_iff_face,
      outlineOf_tree] at hface
    have hmem := (Builder.mem_mustaches (recorded text o) id).2 (hface.1 hmustache)
    obtain ⟨m, hm, rfl⟩ := List.mem_map.1 hmem
    refine ⟨(readingOf text o reader).mustacheText m,
      List.mem_append_right _ (List.mem_map_of_mem ?_), rfl⟩
    rw [outlineOf_mustaches]
    exact hm
  | argument id i =>
    obtain ⟨x, hx, hargument⟩ := Tree.containerAt?_argument.1 hc
    obtain ⟨a, ha, hmem, rfl⟩ := hdirective (by rintro a rfl; exact absurd hargument nofun) hx
    rw [Reading.directive_argument? id i] at hargument
    obtain ⟨p, hp, -⟩ := Option.map_eq_some_iff.1 hargument
    refine ⟨(readingOf text o reader).argumentText id i a p,
      List.mem_append_left _ (List.mem_flatMap.2 ⟨(id, i), hmem, ?_⟩), rfl⟩
    rw [Reading.textsIn_eq _ ha]
    exact List.mem_append_left _ (by simp [hp])
  | value id i =>
    obtain ⟨x, hx, hvalue⟩ := Tree.containerAt?_value.1 hc
    obtain ⟨a, ha, hmem, rfl⟩ := hdirective (by rintro a rfl; exact absurd hvalue nofun) hx
    rw [Reading.directive_value? id i] at hvalue
    obtain ⟨v, hv, -⟩ := Option.map_eq_some_iff.1 hvalue
    refine ⟨(readingOf text o reader).valueText id i a v,
      List.mem_append_left _ (List.mem_flatMap.2 ⟨(id, i), hmem, ?_⟩), rfl⟩
    rw [Reading.textsIn_eq _ ha]
    exact List.mem_append_right _ (by simp [hv])

/-- No two texts have one place. -/
theorem embeddedTexts_nodup (text : String) (o : Options) (reader : Script.Reader) :
    ((embeddedTexts text o reader).map EmbeddedText.place).Nodup := by
  unfold embeddedTexts
  generalize readingOf text o reader = r
  generalize (outlineOf text o).tree = t
  have hdirectives := directives_nodup text o
  have hmustaches := mustaches_nodup text o
  generalize (outlineOf text o).directives.toList = ds at hdirectives ⊢
  generalize (outlineOf text o).mustaches.toList = ms at hmustaches ⊢
  have hplace : ∀ {place : Place} {d : Nat × Nat},
      place ∈ (r.textsIn t d).map EmbeddedText.place →
        place = .argument d.1 d.2 ∨ place = .value d.1 d.2 := by
    intro place d h
    obtain ⟨x, hx, rfl⟩ := List.mem_map.1 h
    exact Reading.place_of_mem_textsIn hx
  have hmap : (ms.map r.mustacheText).map EmbeddedText.place =
      (ms.map PendingMustache.node).map Place.mustache := by
    rw [List.map_map, List.map_map]
    rfl
  rw [List.map_append, List.map_flatMap, hmap, List.nodup_append]
  refine ⟨List.nodup_flatMap.2 ⟨fun d _ => Reading.textsIn_nodup t d, hdirectives.imp ?_⟩,
    hmustaches.map fun _ _ => Place.mustache.inj, fun place hp place' hp' => ?_⟩
  · intro d d' hne place hp hp'
    refine hne (Prod.ext_iff.2 ?_)
    rcases hplace hp with rfl | rfl
    · rcases hplace hp' with heq | heq
      · exact Place.argument.inj heq
      · exact absurd heq nofun
    · rcases hplace hp' with heq | heq
      · exact absurd heq nofun
      · exact Place.value.inj heq
  · rintro rfl
    obtain ⟨d, -, hp⟩ := List.mem_flatMap.1 hp
    obtain ⟨id, -, rfl⟩ := List.mem_map.1 hp'
    rcases hplace hp with heq | heq <;> exact absurd heq nofun

theorem all_plain (text : String) (o : Options) : ∀ d ∈ (outlineOf text o).directives.toList,
    ∃ a, (outlineOf text o).tree.attribute? d.1 d.2 = some (.plain a) :=
  fun _ hd => exists_plain (Array.mem_toList_iff.1 hd)

/-- The failures in the log are those of the texts. -/
theorem progressOf_failures (text : String) (o : Options) (reader : Script.Reader) :
    (progressOf text o reader).log.toList.filterMap LogEntry.failure? =
      (embeddedTexts text o reader).filterMap EmbeddedText.failure? := by
  unfold progressOf directivesRead embeddedTexts
  exact Progress.read_failures (directives_nodup text o) (all_plain text o) (mustachesThere text o)

theorem bindings?_outlineOf (text : String) (o : Options) {vs : Array Variable}
    (h : (outlineOf text o).tree.bindings? id = some vs) : vs = #[] := by
  obtain ⟨e, he, rfl⟩ := Option.map_eq_some_iff.1 h
  rw [outlineOf_tree] at he
  obtain ⟨n, hn, hcontent⟩ := Tree.element?_eq_some.1 he
  exact (builderOf_unread text o id n hn).bindings e hcontent

/-- The variables of an element are those that the texts of its values declare. -/
theorem parse_declared {e : Element} (he : (parse text o reader).tree.element? id = some e) :
    e.bindings.toList.map Variable.declaration =
      (((embeddedTexts text o reader).filter fun x => x.place.isValueIn id).flatMap
        EmbeddedText.declared).map Variable.declaration := by
  have hresolve := (progressOf text o reader).tree.bindings?_resolve id
  rw [← parse_tree, Tree.bindings?, he] at hresolve
  obtain ⟨vs, hvs, heq⟩ := Option.map_eq_some_iff.1 hresolve.symm
  have hdeclared : vs.toList = ((embeddedTexts text o reader).filter
      fun x => x.place.isValueIn id).flatMap EmbeddedText.declared := by
    unfold progressOf directivesRead at hvs
    unfold embeddedTexts
    exact Progress.read_declared (directives_nodup text o) (all_plain text o)
      (mustachesThere text o) (fun _ => bindings?_outlineOf text o) hvs
  rw [← hdeclared]
  exact heq.symm

/-- Each variable of an element is declared by the text of a value in it. -/
theorem exists_declared {e : Element} (he : (parse text o reader).tree.element? id = some e)
    {v : Variable} (hv : v ∈ e.bindings) : ∃ x ∈ embeddedTexts text o reader,
      x.place.isValueIn id = true ∧ ∃ w ∈ x.declared, w.declaration = v.declaration := by
  have hmem : v.declaration ∈ e.bindings.toList.map Variable.declaration :=
    List.mem_map_of_mem (Array.mem_toList_iff.2 hv)
  rw [parse_declared he] at hmem
  obtain ⟨w, hw, heq⟩ := List.mem_map.1 hmem
  obtain ⟨x, hx, hdeclared⟩ := List.mem_flatMap.1 hw
  obtain ⟨hx, hplace⟩ := List.mem_filter.1 hx
  exact ⟨x, hx, hplace, w, hdeclared, heq⟩

/-- How the failures of expressions are accounted for in a template. -/
structure FailuresAccounted (text : String) (o : Options) (reader : Script.Reader) : Prop where
  /-- Each container of the tree has its text, and each text its container. -/
  places : ((embeddedTexts text o reader).map EmbeddedText.place).Nodup ∧
    ∀ place, place ∈ (embeddedTexts text o reader).map EmbeddedText.place ↔
      ∃ c, (parse text o reader).tree.containerAt? place = some c
  /-- A container has an expression, and its text did not fail; or it has none and no references, and its
  text declares nothing.  Then there was nothing to read, or the text failed. -/
  containers : ∀ x ∈ embeddedTexts text o reader, ∀ c,
    (parse text o reader).tree.containerAt? x.place = some c →
      (c.expression.isSome = true ∧ ¬ x.IsVoid ∧ x.failure? = none) ∨
      (c.expression = none ∧ c.references = #[] ∧ x.declared = [] ∧
        (x.IsVoid ∧ x.failure? = none ∨ ¬ x.IsVoid ∧ x.failure?.isSome = true))
  /-- The variables of an element are those that the texts of its values declare. -/
  declared : ∀ id e, (parse text o reader).tree.element? id = some e →
    e.bindings.toList.map Variable.declaration =
      (((embeddedTexts text o reader).filter fun x => x.place.isValueIn id).flatMap
        EmbeddedText.declared).map Variable.declaration
  /-- The diagnostics of expressions are those of the failures, one for each text that failed. -/
  diagnostics : ((parse text o reader).diagnostics.toList.filter (·.cause.isExpression)).Perm
    (((embeddedTexts text o reader).filterMap EmbeddedText.failure?).map fun f =>
      (locatorOf text o).diagnose (.expression f.fault) f.offset)
  count : ((parse text o reader).diagnostics.toList.filter (·.cause.isExpression)).length =
    ((embeddedTexts text o reader).filter fun x => x.failure?.isSome).length
  /-- An attribute that is to be read is a directive, which stands for it. -/
  directives : ∀ id i, (id, i) ∈ (outlineOf text o).directives → ∃ a d,
    (outlineOf text o).tree.attribute? id i = some (.plain a) ∧
      (parse text o reader).tree.attribute? id i = some (.directive d) ∧
        d.StandsFor (readingOf text o reader) a

theorem containers_accounted {x : EmbeddedText} {c : Container} (h : Shows x c) :
    (c.expression.isSome = true ∧ ¬ x.IsVoid ∧ x.failure? = none) ∨
      (c.expression = none ∧ c.references = #[] ∧ x.declared = [] ∧
        (x.IsVoid ∧ x.failure? = none ∨ ¬ x.IsVoid ∧ x.failure?.isSome = true)) := by
  obtain ⟨t, scope, extent, rfl⟩ := h
  unfold Reading.containerOf EmbeddedText.failure? EmbeddedText.declared
  rcases x.outcome_cases with ⟨hvoid, hok⟩ | ⟨hfull, hgives⟩
  · rw [hok]
    exact .inr ⟨rfl, by simp [Tree.bind, Contained.ofResult], rfl, .inl ⟨hvoid, rfl⟩⟩
  · cases hx : x.outcome with
    | ok e => exact .inl ⟨hgives e hx, hfull, rfl⟩
    | error f =>
      exact .inr ⟨rfl, by simp [Tree.bind, Contained.ofResult], rfl, .inr ⟨hfull, rfl⟩⟩

/-- The diagnostics of expressions are those of the texts that failed. -/
theorem parse_expressionDiagnostics (text : String) (o : Options) (reader : Script.Reader) :
    ((parse text o reader).diagnostics.toList.filter (·.cause.isExpression)).Perm
      (((embeddedTexts text o reader).filterMap EmbeddedText.failure?).map fun f =>
        (locatorOf text o).diagnose (.expression f.fault) f.offset) := by
  have hmarkup : (outlineOf text o).diagnostics.toList.filter (·.cause.isExpression) = [] := by
    rw [List.filter_eq_nil_iff]
    intro d hd
    have hfound := (outlineOf_found text o (Array.mem_toList_iff.1 hd)).markup
    cases hcause : d.cause with
    | expression fault => rw [hcause] at hfound; exact absurd hfound Bool.false_ne_true
    | _ => exact Bool.false_ne_true
  have hsorted : (parse text o reader).diagnostics.toList.Perm
      ((outlineOf text o).diagnostics.toList ++ (progressOf text o reader).log.toList.filterMap
        (LogEntry.diagnostic? (locatorOf text o))) := by
    simp only [parse_eq]
    exact List.mergeSort_perm _ _
  refine (hsorted.filter _).trans (List.Perm.of_eq ?_)
  rw [List.filter_append, hmarkup, List.nil_append, LogEntry.filter_diagnostic?,
    progressOf_failures]

/-- Each embedded text that cannot be read has left one diagnostic and an empty container, and the directive
around it is there. -/
theorem parse_failuresAccounted (text : String) (o : Options) (reader : Script.Reader) :
    FailuresAccounted text o reader where
  places := by
    refine ⟨embeddedTexts_nodup text o reader, fun place => ⟨fun h => ?_, ?_⟩⟩
    · obtain ⟨x, hx, rfl⟩ := List.mem_map.1 h
      obtain ⟨c, hc, -⟩ := parse_containerAt? hx
      exact ⟨c, hc⟩
    · rintro ⟨c, hc⟩
      obtain ⟨x, hx, rfl⟩ := exists_embeddedText hc
      exact List.mem_map_of_mem hx
  containers x hx c hc := by
    obtain ⟨c', hc', hshows⟩ := parse_containerAt? hx
    obtain rfl := Option.some.inj (hc.symm.trans hc')
    exact containers_accounted hshows
  declared _ _ he := parse_declared he
  diagnostics := parse_expressionDiagnostics text o reader
  count := by
    rw [(parse_expressionDiagnostics text o reader).length_eq, List.length_map,
      List.length_filterMap_eq_countP, List.countP_eq_length_filter]
  directives id i h := by
    obtain ⟨a, ha⟩ := exists_plain h
    obtain ⟨parent, hresolve⟩ := (progressOf text o reader).tree.attribute?_resolve id i
    rw [← parse_tree, progressOf_attribute?, ha, Option.map_some, Option.map_some] at hresolve
    simp only [if_pos (Array.mem_toList_iff.2 h)] at hresolve
    refine ⟨a, _, ha, hresolve, ?_⟩
    have hextent : ∀ scope c, ((progressOf text o reader).tree.bind scope c).extent = c.extent :=
      fun _ _ => rfl
    exact ((readingOf text o reader).directive_standsFor a).mapContainers hextent id parent

end Template
end TemplateSyntax
