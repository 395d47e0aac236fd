import TemplateSyntax.Proofs.Above
import TemplateSyntax.Proofs.ReadTree
import TemplateSyntax.Proofs.TreeEdits

/-! # The embedded texts of a template

The builder puts each attribute that is a directive on record once, and each mustache.  Behind the outline
the texts in them are read in this order: the dynamic argument of a directive, then its value, and the
mustaches in the end.  Each text has its place in the tree, where there is a container for what was read of
it; there are no other containers. -/

namespace TemplateSyntax

/-! ## The record -/

namespace Draft

open TemplateSyntax.Tree (IsMustache)

variable {d d' : Draft}

/-- What is on record is there, once, and each mustache is. -/
structure Recorded (d : Draft) : Prop where
  there : ∀ x ∈ d.directives, x.1 < d.tree.size
  directives : d.directives.Nodup
  mustaches : (d.mustaches.map PendingMustache.node).Nodup
  nodes : ∀ id, id ∈ d.mustaches.map PendingMustache.node ↔ d.tree.IsMustache id

theorem Recorded.ofRoot (extent : Extent) : (Draft.ofRoot extent).Recorded := by
  refine ⟨by simp [Draft.ofRoot], .nil, .nil, fun id => ⟨fun h => absurd h List.not_mem_nil, ?_⟩⟩
  rintro ⟨n, c, hn, hc⟩
  cases id with
  | zero =>
    obtain rfl := Option.some.inj hn
    cases hc
  | succ id => simp [Draft.ofRoot, Tree.ofRoot, Tree.node?] at hn

/-- Nothing depends on the places of nodes and on the end tags of elements. -/
theorem Recorded.modify (h : d.Recorded) {id : Nat} {f : Node → Node}
    (hf : ∀ n, (f n).core = n.core) : ({ d with tree := d.tree.modify id f } : Draft).Recorded := by
  refine { h with there := fun x hx => ?_, nodes := fun j => ?_ }
  · show x.1 < (d.tree.modify id f).size
    rw [Tree.size_modify]
    exact h.there x hx
  · refine (h.nodes j).trans ?_
    rw [Tree.isMustache_iff_core, Tree.isMustache_iff_core, Tree.core?_modify hf]

/-- A node that is no mustache is added, maybe with directives. -/
theorem Recorded.append (h : d.Recorded) {content : NodeContent}
    (hc : ∀ c, content ≠ .mustache c) (p : Nat) (extent : Extent) (opened : List Nat) {found : List Nat}
    (hf : found.Pairwise (· < ·)) :
    ({ d with
      tree := d.tree.append p content extent
      opened := opened
      directives := d.directives ++ found.map fun i => (d.tree.size, i) } : Draft).Recorded := by
  have hsize := d.tree.size_append p content extent
  have hnew : ∀ x ∈ found.map fun i => (d.tree.size, i), x.1 = d.tree.size := by
    intro x hx
    obtain ⟨i, -, rfl⟩ := List.mem_map.1 hx
    rfl
  refine ⟨fun x hx => ?_, List.nodup_append.2 ⟨h.directives, ?_, ?_⟩, h.mustaches, fun id => ?_⟩
  · show x.1 < (d.tree.append p content extent).size
    rcases List.mem_append.1 hx with hx | hx
    · have := h.there x hx
      omega
    · have := hnew x hx
      omega
  · exact hf.map (fun i => (d.tree.size, i)) fun i j hlt heq =>
      Nat.ne_of_lt hlt (Prod.mk.inj heq).2
  · rintro x hx y hy rfl
    exact absurd (hnew x hy) (Nat.ne_of_lt (h.there x hx))
  · rw [h.nodes, Tree.isMustache_append]
    simp [hc]

/-- Each step of the builder keeps the record. -/
theorem Recorded.step (h : d.Recorded) (hs : d.Step d') : d'.Recorded := by
  cases hs with
  | place id f => exact h.modify fun n => rfl
  | endTag id tag =>
    refine h.modify fun n => ?_
    obtain ⟨content, parent, extent⟩ := n
    cases content <;> rfl
  | close ho => exact { h with }
  | element extent found opens _ _ hf => exact h.append (by simp) _ extent _ hf
  | text value extent =>
    have hc : ∀ c, NodeContent.text value ≠ .mustache c := by simp
    have hf : ([] : List Nat).Pairwise (· < ·) := .nil
    simpa using h.append hc (Tree.tip d.opened) extent d.opened hf
  | mustache value start place extent =>
    have hfresh : d.tree.size ∉ d.mustaches.map PendingMustache.node := by
      rw [h.nodes]
      rintro ⟨n, c, hn, -⟩
      exact absurd (Tree.lt_size hn) (Nat.lt_irrefl _)
    refine ⟨fun x hx => ?_, h.directives, ?_, fun id => ?_⟩
    · show x.1 < (d.tree.append _ _ _).size
      rw [Tree.size_append]
      exact Nat.lt_succ_of_lt (h.there x hx)
    · rw [List.map_append, List.map_singleton, List.nodup_append]
      refine ⟨h.mustaches, List.pairwise_singleton _ _, fun x hx y hy heq => hfresh ?_⟩
      obtain rfl := List.mem_singleton.1 hy
      rwa [show x = d.tree.size from heq] at hx
    · rw [List.map_append, List.map_singleton, List.mem_append, List.mem_singleton, h.nodes,
        Tree.isMustache_append]
      simp

end Draft

/-- What the outline of a text has on record. -/
theorem Builder.outline_recorded (cs : List Char) (l : Locator) (tracing : Bool) (fuel : Nat) :
    (run fuel (ofChars cs l tracing)).closeAll.placeRoot.draft.Recorded :=
  (outline_steps cs l tracing fuel).keep (.ofRoot _) fun hs h => h.step hs

namespace Builder

variable {b : Builder} (h : b.draft.Recorded)

include h in
theorem nodup_directives : b.directives.toList.Nodup := h.directives

include h in
theorem nodup_mustaches : (b.mustaches.toList.map PendingMustache.node).Nodup := h.mustaches

include h in
theorem mem_mustaches (id : Nat) :
    id ∈ b.mustaches.toList.map PendingMustache.node ↔ b.tree.IsMustache id := h.nodes id

end Builder

/-! ## Places and routes -/

namespace Place

/-- Whether the place is that of a value in an element. -/
def isValueIn (id : Nat) : Place → Bool
  | value id' _ => id' == id
  | _ => false

end Place

namespace Tree

variable {t : Tree} {id i : Nat} {c : Container}

theorem containerAt?_mustache : t.containerAt? (.mustache id) = some c ↔
    ∃ n, t.node? id = some n ∧ n.content = .mustache c := by
  refine Option.bind_eq_some_iff.trans (exists_congr fun n => and_congr_right fun _ => ?_)
  unfold Node.mustache?
  split
  · next c' hc => simp [hc]
  · next hc => exact ⟨nofun, fun h => absurd h (hc c)⟩

theorem containerAt?_argument : t.containerAt? (.argument id i) = some c ↔
    ∃ x, t.attribute? id i = some x ∧ x.argument? = some c := Option.bind_eq_some_iff

theorem containerAt?_value : t.containerAt? (.value id i) = some c ↔
    ∃ x, t.attribute? id i = some x ∧ x.value? = some c := Option.bind_eq_some_iff

end Tree

/-- A way to read an embedded text. -/
inductive Route where
  | expression (filters : Bool)
  | iteration
  | handler
  | parameters
  deriving DecidableEq

/-- Reads a fragment in one of the ways. -/
def Fragment.read (f : Fragment) : Route → Except ReadFailure Embedded
  | .expression filters => f.readExpression filters
  | .iteration => f.readIteration
  | .handler => f.readHandler
  | .parameters => f.readParameters

/-- An embedded text, its place, and the way in which it is read. -/
structure EmbeddedText where
  place : Place
  fragment : Fragment
  route : Route

namespace EmbeddedText

/-- What reading the text comes to. -/
def outcome (x : EmbeddedText) : Except ReadFailure Embedded := x.fragment.read x.route

/-- What is wrong with the text. -/
def failure? (x : EmbeddedText) : Option ReadFailure :=
  match x.outcome with
  | .ok _ => none
  | .error f => some f

/-- The variables that the text declares. -/
def declared (x : EmbeddedText) : List Variable :=
  match x.outcome with
  | .ok e => e.bindings.toList
  | .error _ => []

end EmbeddedText

namespace Reading

variable (r : Reading)

/-- The way in which the value of a directive is read. -/
def route (key : DirectiveKey) : Route :=
  match key.name.name with
  | "for" => .iteration
  | "slot" | "slot-scope" | "scope" => .parameters
  | "bind" => .expression r.filters
  | "on" => if key.argument.isSome then .handler else .expression false
  | _ => .expression false

theorem readValue_eq (key : DirectiveKey) (f : Fragment) :
    r.readValue key f = f.read (r.route key) := by
  unfold readValue route
  generalize key.name.name = name
  repeat' first | rfl | contradiction | split

/-- The text in the name of an attribute. -/
def argumentText (id i : Nat) (a : PlainAttribute) (p : KeyPiece) : EmbeddedText :=
  ⟨.argument id i,
    r.fragment (p.text.drop 1).dropLast (a.key.extent.span.start + p.start + 1), .expression false⟩

/-- The text in the value of an attribute. -/
def valueText (id i : Nat) (a : PlainAttribute) (v : Literal) : EmbeddedText :=
  ⟨.value id i, r.valueFragment v, r.route (r.key a.key).1⟩

/-- The text of a mustache. -/
def mustacheText (m : PendingMustache) : EmbeddedText :=
  ⟨.mustache m.node, r.fragment m.value.toList m.start, .expression r.filters⟩

/-- The dynamic argument in the name of an attribute, if it has one. -/
def dynamicPiece? (a : PlainAttribute) : Option KeyPiece :=
  match (KeyParts.ofName a.key.rawName.toList).tail.argument with
  | some (.dynamic p) => some p
  | _ => none

/-- The texts of an attribute: its argument, then its value. -/
def textsOf (id i : Nat) (a : PlainAttribute) : List EmbeddedText :=
  ((dynamicPiece? a).map (r.argumentText id i a)).toList ++
    (a.value.map (r.valueText id i a)).toList

/-- The texts of the attribute at a place of a tree, if it is no directive yet. -/
def textsIn (t : Tree) (d : Nat × Nat) : List EmbeddedText :=
  match t.attribute? d.1 d.2 with
  | some (.plain a) => r.textsOf d.1 d.2 a
  | _ => []

variable {r}

theorem place_of_mem_textsOf {id i : Nat} {a : PlainAttribute} {x : EmbeddedText}
    (h : x ∈ r.textsOf id i a) : x.place = .argument id i ∨ x.place = .value id i := by
  rcases List.mem_append.1 h with h | h
  · simp only [Option.mem_toList, Option.map_eq_some_iff] at h
    obtain ⟨p, -, rfl⟩ := h
    exact .inl rfl
  · simp only [Option.mem_toList, Option.map_eq_some_iff] at h
    obtain ⟨v, -, rfl⟩ := h
    exact .inr rfl

theorem textsOf_nodup (id i : Nat) (a : PlainAttribute) :
    ((r.textsOf id i a).map EmbeddedText.place).Nodup := by
  unfold textsOf
  cases dynamicPiece? a <;> cases a.value <;> simp [argumentText, valueText]

theorem place_of_mem_textsIn {t : Tree} {d : Nat × Nat} {x : EmbeddedText}
    (h : x ∈ r.textsIn t d) : x.place = .argument d.1 d.2 ∨ x.place = .value d.1 d.2 := by
  unfold textsIn at h
  split at h
  · exact place_of_mem_textsOf h
  · simp at h

theorem textsIn_nodup (t : Tree) (d : Nat × Nat) :
    ((r.textsIn t d).map EmbeddedText.place).Nodup := by
  unfold textsIn
  split
  · exact textsOf_nodup d.1 d.2 _
  · exact List.nodup_nil

variable (r)

theorem textsIn_eq {t : Tree} {id i : Nat} {a : PlainAttribute}
    (ha : t.attribute? id i = some (.plain a)) : r.textsIn t (id, i) = r.textsOf id i a := by
  simp only [textsIn, ha]

end Reading

/-! ## What is read of a text -/

/-- The failure that an entry of the log stands for, if it is one of an expression. -/
def LogEntry.failure? : LogEntry → Option ReadFailure
  | .expressionFault offset fault => some ⟨fault, offset⟩
  | _ => none

namespace Reading

variable {r : Reading} {id i : Nat} {a : PlainAttribute}

/-- The container that shows what a text came to. -/
def containerOf (x : EmbeddedText) (extent : Extent) : Container :=
  (Contained.ofResult extent x.outcome).container

theorem containerOf_extent (x : EmbeddedText) (extent : Extent) :
    (containerOf x extent).extent = extent := by
  unfold containerOf
  cases x.outcome <;> rfl

theorem faults_ofResult (x : EmbeddedText) (extent : Extent) :
    (Contained.ofResult extent x.outcome).faults.filterMap LogEntry.failure? =
      x.failure?.toList := by
  unfold EmbeddedText.failure?
  cases x.outcome <;> rfl

theorem failures_singleton (x : EmbeddedText) :
    [x].filterMap EmbeddedText.failure? = x.failure?.toList := by
  cases hx : x.failure? <;> simp [hx]

theorem bindings_ofResult (x : EmbeddedText) (extent : Extent) :
    (Contained.ofResult extent x.outcome).bindings.toList = x.declared := by
  unfold EmbeddedText.declared
  cases x.outcome <;> rfl

theorem dynamicArgument_eq (p : KeyPiece) :
    r.dynamicArgument a.key.extent.span.start p =
      .ofResult (r.pieceExtent a.key.extent.span.start p) (r.argumentText id i a p).outcome := rfl

theorem value_eq (id i : Nat) (v : Literal) : r.value (r.key a.key).1 v =
    .ofResult v.extent (r.valueText id i a v).outcome := by
  unfold value
  rw [readValue_eq]
  rfl

theorem key_argument : (r.key a.key).1.argument =
    (KeyParts.ofName a.key.rawName.toList).tail.argument.map fun p =>
      (r.argument a.key.extent.span.start p).1 := by
  unfold key
  dsimp only
  rw [Option.map_map]
  rfl

/-- The container of a dynamic argument shows its text. -/
theorem directive_argument? (id i : Nat) : (Attribute.directive (r.directive a).directive).argument? =
    (dynamicPiece? a).map fun p =>
      containerOf (r.argumentText id i a p) (r.pieceExtent a.key.extent.span.start p) := by
  have hkey : (r.directive a).directive.key = (r.key a.key).1 := rfl
  have hargument := key_argument (r := r) (a := a)
  rw [← hkey] at hargument
  unfold dynamicPiece?
  generalize (r.directive a).directive = d at hargument ⊢
  obtain ⟨⟨name, argument, modifiers, kextent⟩, value, extent⟩ := d
  obtain rfl : argument = _ := hargument
  cases (KeyParts.ofName a.key.rawName.toList).tail.argument with
  | none => rfl
  | some p =>
    cases p with
    | fixed p => rfl
    | dynamic p => rfl

/-- The container of a value shows its text. -/
theorem directive_value? (id i : Nat) : (Attribute.directive (r.directive a).directive).value? =
    a.value.map fun v => containerOf (r.valueText id i a v) v.extent := by
  have hvalue : (Attribute.directive (r.directive a).directive).value? =
      (a.value.map (r.value (r.key a.key).1)).map Contained.container := rfl
  rw [hvalue, Option.map_map]
  cases a.value with
  | none => rfl
  | some v => exact congrArg (fun c => some (Contained.container c)) (value_eq id i v)

theorem directive_bindings : (r.directive a).bindings.toList =
    ((r.textsOf id i a).filter fun x => x.place.isValueIn id).flatMap EmbeddedText.declared := by
  have hbindings : (r.directive a).bindings =
      ((a.value.map (r.value (r.key a.key).1)).map Contained.bindings).getD #[] := rfl
  have hargument : ((dynamicPiece? a).map (r.argumentText id i a)).toList.filter
      (fun x => x.place.isValueIn id) = [] := by
    rw [List.filter_eq_nil_iff]
    intro x hx
    simp only [Option.mem_toList, Option.map_eq_some_iff] at hx
    obtain ⟨p, -, rfl⟩ := hx
    exact Bool.false_ne_true
  rw [hbindings, textsOf, List.filter_append, hargument, List.nil_append]
  cases a.value with
  | none => rfl
  | some v =>
    have hplace : (r.valueText id i a v).place.isValueIn id = true := beq_self_eq_true id
    simp only [Option.map_some, Option.getD_some, Option.toList_some, List.filter_cons, hplace,
      if_true, List.filter_nil, List.flatMap_cons, List.flatMap_nil, List.append_nil]
    rw [value_eq id i, bindings_ofResult]

/-- The log of a directive has the failures of its texts. -/
theorem directive_log : (r.directive a).log.filterMap LogEntry.failure? =
    (r.textsOf id i a).filterMap EmbeddedText.failure? := by
  have hlog : (r.directive a).log = (r.key a.key).2 ++
      [.converting a.key.rawName (r.key a.key).1.name.name] ++
        ((a.value.map (r.value (r.key a.key).1)).map Contained.faults).getD [] := rfl
  have hkey : (r.key a.key).2.filterMap LogEntry.failure? =
      ((dynamicPiece? a).map (r.argumentText id i a)).toList.filterMap EmbeddedText.failure? := by
    have hfaults : (r.key a.key).2 =
        (((KeyParts.ofName a.key.rawName.toList).tail.argument.map
          (r.argument a.key.extent.span.start)).map Prod.snd).getD [] ++
          (KeyParts.ofName a.key.rawName.toList).tail.faults.map fun x =>
            .keyFault (a.key.extent.span.start + x.1) x.2 := rfl
    have hrest : ((KeyParts.ofName a.key.rawName.toList).tail.faults.map fun x =>
        LogEntry.keyFault (a.key.extent.span.start + x.1) x.2).filterMap LogEntry.failure? =
          [] := by
      rw [List.filterMap_eq_nil_iff]
      intro x hx
      obtain ⟨y, -, rfl⟩ := List.mem_map.1 hx
      rfl
    rw [hfaults, List.filterMap_append, hrest, List.append_nil]
    unfold dynamicPiece?
    cases (KeyParts.ofName a.key.rawName.toList).tail.argument with
    | none => rfl
    | some p =>
      cases p with
      | fixed p => rfl
      | dynamic p =>
        have hfailure := faults_ofResult (r.argumentText id i a p)
          (r.pieceExtent a.key.extent.span.start p)
        rw [← dynamicArgument_eq] at hfailure
        exact hfailure.trans (failures_singleton _).symm
  have hvalue : (((a.value.map (r.value (r.key a.key).1)).map Contained.faults).getD
      []).filterMap LogEntry.failure? =
        (a.value.map (r.valueText id i a)).toList.filterMap EmbeddedText.failure? := by
    cases a.value with
    | none => rfl
    | some v =>
      have hfailure := faults_ofResult (r.valueText id i a v) v.extent
      rw [← value_eq] at hfailure
      exact hfailure.trans (failures_singleton _).symm
  rw [hlog, List.filterMap_append, List.filterMap_append, hkey, hvalue, textsOf,
    List.filterMap_append]
  simp [LogEntry.failure?]

end Reading
end TemplateSyntax
