import TemplateSyntax.Proofs.FragmentParts
import TemplateSyntax.Proofs.ParseStages
import TemplateSyntax.Proofs.References
import TemplateSyntax.Proofs.TreeEdits

/-! # The references of a template

No variable is used before references are resolved: the builder declares none, and those that
directives declare are new.  So in the tree of a template references and variables are tied to each
other. -/

namespace TemplateSyntax

theorem mem_set! {α : Type} {xs : Array α} {k : Nat} {x y : α} (h : y ∈ xs.set! k x) :
    y = x ∨ y ∈ xs := by
  rw [Array.set!_eq_setIfInBounds] at h
  exact (Array.mem_or_eq_of_mem_setIfInBounds h).symm

/-! ## Fragments -/

/-- None of the variables is used. -/
def Unused (xs : Array Variable) : Prop := ∀ x ∈ xs, x.uses = #[]

theorem Unused.empty : Unused #[] := by simp [Unused]

/-- Neither are the variables used, nor do the references mean variables. -/
structure Embedded.Untied (e : Embedded) : Prop where
  bindings : Unused e.bindings
  references : ∀ r ∈ e.references, r.target = none

theorem Embedded.untied_empty : ({} : Embedded).Untied := ⟨.empty, by simp⟩

namespace Script

theorem unused_declaredVariables (kind : VariableKind) (pats : List Pat) :
    Unused (declaredVariables kind pats).toArray := by
  intro x hx
  obtain ⟨id, -, rfl⟩ := List.mem_map.1 (List.mem_toArray.1 hx)
  rfl

/-- What is made of uses means no variable yet. -/
theorem untied_references {uses : List Use} {r : Reference} (hr : r ∈ uses.map Use.reference) :
    r.target = none := by
  obtain ⟨u, -, rfl⟩ := List.mem_map.1 hr
  rfl

end Script

open Script in
/-- What has nothing but references that are made of uses. -/
theorem Embedded.Untied.ofUses (expression : Option Expression) (uses : List Use) :
    Untied { expression, references := (uses.map Use.reference).toArray } :=
  ⟨.empty, fun _ hr => untied_references (List.mem_toArray.1 hr)⟩

namespace Fragment

variable {f : Fragment} {e : Embedded}

theorem readPlain_untied (h : f.readPlain = .ok e) : e.Untied := by
  unfold readPlain at h
  split at h
  · obtain rfl := Except.ok.inj h
    exact Embedded.untied_empty
  · obtain ⟨x, -, hpure⟩ := bind_ok h
    obtain rfl := Except.ok.inj hpure
    exact .ofUses _ _

/-- Expressions declare nothing to the template. -/
theorem readExpression_untied {filters : Bool} (h : f.readExpression filters = .ok e) : e.Untied := by
  unfold readExpression at h
  split at h
  · obtain rfl := Except.ok.inj h
    exact Embedded.untied_empty
  · split at h
    · unfold readFiltered at h
      obtain ⟨x, -, hrest⟩ := bind_ok h
      obtain ⟨rs, -, hpure⟩ := bind_ok hrest
      obtain rfl := Except.ok.inj hpure
      exact .ofUses _ _
    · exact readPlain_untied h

theorem readHandler_untied (h : f.readHandler = .ok e) : e.Untied := by
  unfold readHandler at h
  split at h
  · obtain rfl := Except.ok.inj h
    exact Embedded.untied_empty
  dsimp only at h
  split at h
  · exact readPlain_untied h
  · unfold readStatements at h
    obtain ⟨script, -, hrest⟩ := bind_ok h
    split at hrest
    · obtain rfl := Except.ok.inj hrest
      exact .ofUses _ _
    · exact absurd hrest nofun

theorem readParameters_untied (h : f.readParameters = .ok e) : e.Untied := by
  unfold readParameters at h
  split at h
  · obtain rfl := Except.ok.inj h
    exact Embedded.untied_empty
  · obtain ⟨script, -, hrest⟩ := bind_ok h
    split at hrest
    · exact absurd hrest nofun
    · obtain rfl := Except.ok.inj hrest
      exact Embedded.untied_empty
    · obtain rfl := Except.ok.inj hrest
      exact ⟨Script.unused_declaredVariables _ _,
        fun _ hr => Script.untied_references (List.mem_toArray.1 hr)⟩

theorem readIteration_untied (h : f.readIteration = .ok e) : e.Untied := by
  unfold readIteration at h
  split at h
  · obtain rfl := Except.ok.inj h
    exact Embedded.untied_empty
  · split at h
    · exact absurd h nofun
    · dsimp only at h
      split at h
      · exact absurd h nofun
      · obtain ⟨pats, -, hrest⟩ := bind_ok h
        obtain ⟨x, -, hpure⟩ := bind_ok (show (readOne _ >>= _) = _ from hrest)
        obtain rfl := Except.ok.inj hpure
        refine ⟨Script.unused_declaredVariables _ _, fun r hr => ?_⟩
        exact Script.untied_references (List.mem_mergeSort.1 (List.mem_toArray.1 hr))

end Fragment

/-- What is not tied yet in a container. -/
def Container.Untied (c : Container) : Prop := ∀ r ∈ c.references, r.target = none

theorem Contained.untied_ofResult {extent : Extent} {x : Except ReadFailure Embedded}
    (h : ∀ e, x = .ok e → e.Untied) :
    (ofResult extent x).container.Untied ∧ Unused (ofResult extent x).bindings := by
  cases x with
  | error failure => exact ⟨by simp [ofResult, Container.Untied], .empty⟩
  | ok e => exact ⟨(h e rfl).references, (h e rfl).bindings⟩

namespace Reading

variable {r : Reading}

theorem readValue_untied {key : DirectiveKey} {f : Fragment} {e : Embedded}
    (h : r.readValue key f = .ok e) : e.Untied := by
  unfold readValue at h
  split at h
  · exact Fragment.readIteration_untied h
  · exact Fragment.readParameters_untied h
  · exact Fragment.readParameters_untied h
  · exact Fragment.readParameters_untied h
  · exact Fragment.readExpression_untied h
  · split at h
    · exact Fragment.readHandler_untied h
    · exact Fragment.readExpression_untied h
  · exact Fragment.readExpression_untied h

/-- What a directive declares and refers to is new. -/
theorem directive_untied (r : Reading) (a : PlainAttribute) :
    (∀ c ∈ (r.directive a).directive.containers, c.Untied) ∧ Unused (r.directive a).bindings := by
  have hargument : ∀ {c}, ((KeyParts.ofName a.key.rawName.toList).tail.argument.map
      (r.argument a.key.extent.span.start)).map Prod.fst = some (.dynamic c) → c.Untied := by
    intro c hc
    obtain ⟨⟨x, faults⟩, hx, rfl⟩ := Option.map_eq_some_iff.1 hc
    obtain ⟨p, -, hp⟩ := Option.map_eq_some_iff.1 hx
    cases p with
    | fixed p => simp [argument] at hp
    | dynamic p =>
      simp only [argument, Prod.mk.injEq, DirectiveArgument.dynamic.injEq] at hp
      obtain ⟨rfl, -⟩ := hp
      exact (Contained.untied_ofResult fun _ he => Fragment.readExpression_untied he).1
  have hvalue : ∀ key l, (r.value key l).container.Untied ∧ Unused (r.value key l).bindings :=
    fun key l => Contained.untied_ofResult fun _ he => readValue_untied he
  constructor
  · intro c hc
    rcases List.mem_append.1 hc with hc | hc
    · split at hc
      · next c' hc' => exact List.mem_singleton.1 hc ▸ hargument hc'
      · simp at hc
    · obtain ⟨x, hx, rfl⟩ := Option.map_eq_some_iff.1 (Option.mem_toList.1 hc)
      obtain ⟨l, -, rfl⟩ := Option.map_eq_some_iff.1 hx
      exact (hvalue _ l).1
  · unfold directive
    dsimp only
    cases a.value with
    | none => exact .empty
    | some l => exact (hvalue _ l).2

theorem mustache_untied (r : Reading) (value : String) (start : Nat) (extent : Extent) :
    (r.mustache value start extent).container.Untied :=
  (Contained.untied_ofResult fun _ he => Fragment.readExpression_untied he).1

end Reading

/-! ## The tree -/

/-- Neither are the variables of the node used, nor do its references mean variables. -/
structure Node.Fresh (n : Node) : Prop where
  bindings : ∀ e, n.content = .element e → Unused e.bindings
  untied : n.Untied

theorem Node.untied_element {e : Element} {parent : Option Nat} {extent : Extent}
    (h : ∀ x ∈ e.attributes, ∀ c ∈ x.containers, c.Untied) :
    Node.Untied ⟨.element e, parent, extent⟩ := by
  intro c hc
  obtain ⟨cs, hcs, hmem⟩ := List.mem_flatten.1 hc
  obtain ⟨x, hx, rfl⟩ := List.mem_map.1 hcs
  exact h x (Array.mem_toList_iff.1 hx) c hmem

/-- A directive takes the place of an attribute. -/
theorem Node.Fresh.setDirective {n : Node} {e : Element} (h : n.Fresh) (he : n.content = .element e)
    (r : Reading) (a : PlainAttribute) (i : Nat) :
    Node.Fresh { n with content := .element { e with
      attributes := e.attributes.set! i (.directive (r.directive a).directive)
      bindings := e.bindings ++ (r.directive a).bindings } } := by
  obtain ⟨hcontainers, hbindings⟩ := r.directive_untied a
  refine ⟨fun e' he' x hx => ?_, Node.untied_element fun x hx => ?_⟩
  · obtain rfl := NodeContent.element.inj he'
    rcases Array.mem_append.1 hx with hx | hx
    · exact h.bindings e he x hx
    · exact hbindings x hx
  · rcases mem_set! hx with rfl | hx
    · exact hcontainers
    · refine fun c hc => h.untied c ?_
      rw [Node.containers, he]
      exact List.mem_flatten.2 ⟨_, List.mem_map_of_mem (Array.mem_toList_iff.2 hx), hc⟩

/-- No variable of the tree is used, and no reference means one. -/
def Tree.AllFresh (t : Tree) : Prop := ∀ id n, t.node? id = some n → n.Fresh

namespace Template

namespace Progress

variable {r : Reading} {p : Progress}

theorem readDirective_fresh (h : p.tree.AllFresh) (d : Nat × Nat) :
    (p.readDirective r d).tree.AllFresh := by
  unfold readDirective
  dsimp only
  split
  · refine Tree.forall_modify h fun n _ hn => ?_
    unfold Node.mapElement
    split
    · next e he => exact hn.setDirective he r _ _
    · exact hn
  · exact h

theorem readMustache_fresh (h : p.tree.AllFresh) (m : PendingMustache) :
    (p.readMustache r m).tree.AllFresh := by
  unfold readMustache
  split
  · exact h
  · refine Tree.forall_modify h fun n _ _ => ⟨nofun, fun c hc => ?_⟩
    exact List.mem_singleton.1 hc ▸ r.mustache_untied _ _ _

theorem foldl_readDirective_fresh (h : p.tree.AllFresh) (ds : List (Nat × Nat)) :
    (ds.foldl (readDirective r) p).tree.AllFresh := by
  induction ds generalizing p with
  | nil => exact h
  | cons d ds ih => exact ih (readDirective_fresh h d)

theorem foldl_readMustache_fresh (h : p.tree.AllFresh) (ms : List PendingMustache) :
    (ms.foldl (readMustache r) p).tree.AllFresh := by
  induction ms generalizing p with
  | nil => exact h
  | cons m ms ih => exact ih (readMustache_fresh h m)

end Progress

variable (text : String) (o : Options) {reader : Script.Reader}

theorem builderOf_unread : (builderOf text o).tree.Unread := by
  have hroot : (Tree.ofRoot ((locatorOf text o).extent (locatorOf text o).fullSpan)).Unread := by
    intro id n hn
    obtain ⟨-, rfl⟩ := Tree.node?_ofRoot hn
    exact ⟨nofun, nofun⟩
  unfold builderOf
  exact hroot.edits (Builder.outline_edits text.toList (locatorOf text o) o.tracing _)

/-- The outline has plain attributes and mustaches that were not read. -/
theorem outlineOf_fresh : (outlineOf text o).tree.AllFresh := by
  rw [outlineOf_tree]
  obtain ⟨taken, hwhole⟩ := builderOf_whole text o
  intro id n hn
  have hunread := builderOf_unread text o id n hn
  refine ⟨fun e he => hunread.bindings e he ▸ .empty, fun c hc => ?_⟩
  obtain ⟨content, parent, extent⟩ := n
  cases content with
  | root _ | text _ => exact absurd hc List.not_mem_nil
  | mustache c' =>
    obtain rfl := List.mem_singleton.1 hc
    simp [(hunread.mustache c rfl).2]
  | element e =>
    have hattributes : ∀ x ∈ e.attributes, ∀ c ∈ x.containers, c.Untied := fun x hx => by
      have he : (builderOf text o).tree.element? id = some e := by rw [Tree.element?_eq hn]; rfl
      obtain ⟨ns, y, rfl, -⟩ := hwhole.attributes id e he x hx
      exact fun c hc => absurd hc List.not_mem_nil
    exact Node.untied_element hattributes c hc

/-- No variable is used when the references are resolved, and no reference means one. -/
theorem progressOf_fresh : (progressOf text o reader).tree.AllFresh := by
  unfold progressOf directivesRead
  exact Progress.foldl_readMustache_fresh (Progress.foldl_readDirective_fresh
    (p := { tree := (outlineOf text o).tree }) (outlineOf_fresh text o) _) _

theorem progressOf_untied : (progressOf text o reader).tree.Untied := fun id n hn =>
  (progressOf_fresh text o id n hn).untied

/-- Resolving the tree of a template ties its references and variables to each other. -/
theorem progressOf_bound : (progressOf text o reader).tree.resolve.ReferencesBound := by
  refine (linked_progressOf text o).referencesBound (fun v x hx => ?_) (progressOf_untied text o)
  obtain ⟨e, he, hx⟩ := Option.bind_eq_some_iff.1 hx
  obtain ⟨n, hn, hcontent⟩ := Tree.element?_eq_some.1 he
  exact (progressOf_fresh text o v.element n hn).bindings e hcontent x (Array.mem_of_getElem? hx)

/-- References bind to the nearest enclosing variable of their name, and references and variables
agree about it: a reference is tied to the last variable of its name on the first element of its
scope chain that has one, or to none, and a variable knows exactly the references tied to it. -/
theorem parse_referencesBound : (parse text o reader).tree.ReferencesBound := by
  rw [parse_tree]
  exact progressOf_bound text o

end Template
end TemplateSyntax
