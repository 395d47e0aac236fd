import TemplateSyntax.Proofs.Lookup
import TemplateSyntax.Proofs.ReadingPasses

/-! # References and their variables

When a tree is resolved, each reference of a container is tied to the nearest variable of its name
on the scope chain of the container, and each variable knows exactly the references that are tied to
it.  Neither changes who is whose parent and which variables there are, so that both can be said of
the resolved tree itself. -/

namespace TemplateSyntax

variable {t t' : Tree} {id : Nat} {n n' : Node} {scope : Option Nat} {c : Container}
  {v w : VariableRef}

/-- The container is one of the node of an index, and its references are looked up from `scope`
on. -/
inductive Node.Holds (id : Nat) (n : Node) : Option Nat → Container → Prop
  | mustache {c : Container} (hn : n.content = .mustache c) : Holds id n n.parent c
  | argument {e : Element} {d : Directive} {c : Container} (hn : n.content = .element e)
      (hd : .directive d ∈ e.attributes) (hc : d.key.argument = some (.dynamic c)) :
      Holds id n (some id) c
  /-- The value of most directives is in the scope of its element. -/
  | value {e : Element} {d : Directive} {c : Container} (hn : n.content = .element e)
      (hd : .directive d ∈ e.attributes) (hc : d.value = some c)
      (hname : d.key.name.name ∉ ["for", "slot", "slot-scope", "scope"]) :
      Holds id n (some id) c
  /-- The variables that a value declares are not in its scope. -/
  | declaring {e : Element} {d : Directive} {c : Container} (hn : n.content = .element e)
      (hd : .directive d ∈ e.attributes) (hc : d.value = some c)
      (hname : d.key.name.name ∈ ["for", "slot", "slot-scope", "scope"]) :
      Holds id n n.parent c

namespace Tree

/-- All references of a tree, in the order of the containers. -/
def references (t : Tree) : List Reference :=
  (t.nodes.toList.map fun n =>
    (n.containers.map fun c => c.references.toList).flatten).flatten

/-- References and variables are tied to each other. -/
structure ReferencesBound (t : Tree) : Prop where
  /-- A reference means the nearest variable of its name on the scope chain of its container. -/
  nearest : ∀ id n scope c, t.node? id = some n → n.Holds id scope c →
    ∃ chain, t.ChainFrom scope chain ∧ ∀ r ∈ c.references,
      (∀ v, r.target = some v ↔ t.Nearest chain r.name v) ∧
      (r.target = none ↔ ∀ e ∈ chain, ∀ i, ¬ t.Declares r.name ⟨e, i⟩)
  /-- A variable knows the references that mean it, each once. -/
  uses : ∀ v x, t.variableAt? v = some x →
    x.uses.toList = (t.references.filter (·.target = some v)).map Reference.ident
  /-- The containers of the nodes are all there are. -/
  containers : ∀ r, r ∈ t.references ↔ ∃ id n scope c,
    t.node? id = some n ∧ n.Holds id scope c ∧ r ∈ c.references

/-- The spans of the references to a variable. -/
theorem ReferencesBound.spans (h : t.ReferencesBound) {x : Variable}
    (hx : t.variableAt? v = some x) : x.references.toList =
      (t.references.filter (·.target = some v)).map Reference.span := by
  rw [Variable.references, Array.toList_map, h.uses v x hx, List.map_map]
  rfl

end Tree

/-! ## Containers -/

theorem Node.mem_containers : c ∈ n.containers ↔ ∃ scope, n.Holds id scope c := by
  have hdirective : ∀ {d : Directive} {c : Container}, c ∈ d.containers ↔
      d.key.argument = some (.dynamic c) ∨ d.value = some c := by
    intro d c
    unfold Directive.containers
    rw [List.mem_append, Option.mem_toList]
    refine or_congr ?_ Iff.rfl
    split
    · next c' hc => simp [hc, eq_comm]
    · next hc =>
      simp only [List.not_mem_nil, false_iff]
      exact hc c
  constructor
  · intro h
    unfold Node.containers at h
    split at h
    · next c' hn =>
      obtain rfl := List.mem_singleton.1 h
      exact ⟨_, .mustache hn⟩
    · next e hn =>
      obtain ⟨cs, hcs, hmem⟩ := List.mem_flatten.1 h
      obtain ⟨a, ha, rfl⟩ := List.mem_map.1 hcs
      have ha' : a ∈ e.attributes := by simpa using ha
      cases a with
      | plain a => simp [Attribute.containers] at hmem
      | directive d =>
        rcases hdirective.1 hmem with hc | hc
        · exact ⟨_, .argument hn ha' hc⟩
        · by_cases hname : d.key.name.name ∈ ["for", "slot", "slot-scope", "scope"]
          · exact ⟨_, .declaring hn ha' hc hname⟩
          · exact ⟨_, .value hn ha' hc hname⟩
    · simp at h
  · rintro ⟨scope, h⟩
    unfold Node.containers
    have hattr : ∀ {e : Element} {d : Directive}, .directive d ∈ e.attributes →
        c ∈ d.containers → c ∈ (e.attributes.toList.map Attribute.containers).flatten := by
      intro e d hd hc
      exact List.mem_flatten.2 ⟨d.containers, List.mem_map.2 ⟨.directive d, by simpa using hd, rfl⟩,
        hc⟩
    cases h with
    | mustache hn => simp [hn]
    | argument hn hd hc => simpa [hn] using hattr hd (hdirective.2 (.inl hc))
    | value hn hd hc _ | declaring hn hd hc _ =>
      simpa [hn] using hattr hd (hdirective.2 (.inr hc))

theorem Tree.mem_references {r : Reference} : r ∈ t.references ↔ ∃ id n scope c,
    t.node? id = some n ∧ n.Holds id scope c ∧ r ∈ c.references := by
  simp only [references, List.mem_flatten, List.mem_map]
  constructor
  · rintro ⟨rs, ⟨n, hn, rfl⟩, hr⟩
    obtain ⟨rs', hrs', hr'⟩ := List.mem_flatten.1 hr
    obtain ⟨c, hc, rfl⟩ := List.mem_map.1 hrs'
    obtain ⟨id, hid⟩ := Array.mem_iff_getElem?.1 (Array.mem_toList_iff.1 hn)
    obtain ⟨scope, hscope⟩ : ∃ scope, n.Holds id scope c := n.mem_containers.1 hc
    exact ⟨id, n, scope, c, hid, hscope, by simpa using hr'⟩
  · rintro ⟨id, n, scope, c, hid, hscope, hr⟩
    have hc : c ∈ n.containers := n.mem_containers.2 ⟨scope, hscope⟩
    refine ⟨_, ⟨n, by simpa using Array.mem_of_getElem? hid, rfl⟩, List.mem_flatten.2
      ⟨c.references.toList, List.mem_map.2 ⟨c, hc, rfl⟩, by simpa using hr⟩⟩

theorem Node.mapElement_mapElement (f g : Element → Element) (n : Node) :
    (n.mapElement f).mapElement g = n.mapElement (g ∘ f) := by
  obtain ⟨content, parent, extent⟩ := n
  cases content <;> rfl

/-- The node without the variables that it declares. -/
def Node.withoutBindings (n : Node) : Node := n.mapElement fun e => { e with bindings := #[] }

theorem Node.containers_withoutBindings (n : Node) :
    n.withoutBindings.containers = n.containers := by
  obtain ⟨content, parent, extent⟩ := n
  cases content <;> rfl

/-- The containers of a node do not depend on its variables. -/
theorem Node.Holds.congr (h : n.Holds id scope c)
    (heq : n'.withoutBindings = n.withoutBindings) : n'.Holds id scope c := by
  have hparent : n'.parent = n.parent := by
    have := congrArg Node.parent heq
    simp only [Node.withoutBindings, Node.mapElement] at this
    split at this <;> split at this <;> exact this
  have helement : ∀ {e : Element}, n.content = .element e →
      ∃ e', n'.content = .element e' ∧ e'.attributes = e.attributes := by
    intro e he
    have := congrArg Node.content heq
    simp only [Node.withoutBindings, Node.mapElement, he] at this
    split at this
    · next e' he' =>
      obtain heq := NodeContent.element.inj this
      exact ⟨e', he', congrArg (fun x => x.attributes) heq⟩
    · next hno => exact absurd this (hno _)
  cases h with
  | mustache hn =>
    rw [← hparent]
    refine .mustache ?_
    have := congrArg Node.content heq
    simp only [Node.withoutBindings, Node.mapElement, hn] at this
    split at this
    · next e' he' => simp at this
    · exact this
  | argument hn hd hc =>
    obtain ⟨e', he', ha⟩ := helement hn
    exact .argument he' (ha ▸ hd) hc
  | value hn hd hc hname =>
    obtain ⟨e', he', ha⟩ := helement hn
    exact .value he' (ha ▸ hd) hc hname
  | declaring hn hd hc hname =>
    obtain ⟨e', he', ha⟩ := helement hn
    rw [← hparent]
    exact .declaring he' (ha ▸ hd) hc hname

/-- Each container of a changed node is a changed container, in the same scope. -/
theorem Node.Holds.of_mapContainers {f : Option Nat → Container → Container}
    (h : (n.mapContainers f id).Holds id scope c) :
    ∃ c₀, n.Holds id scope c₀ ∧ c = f scope c₀ := by
  have hattr : ∀ {e : Element} {d : Directive}, (n.mapContainers f id).content = .element e →
      .directive d ∈ e.attributes →
      ∃ e₀ d₀, n.content = .element e₀ ∧ .directive d₀ ∈ e₀.attributes ∧
        d = d₀.mapContainers f id n.parent := by
    intro e d hn hd
    unfold Node.mapContainers at hn
    split at hn
    · simp at hn
    · next e₀ he₀ =>
      obtain rfl := NodeContent.element.inj hn
      obtain ⟨a, ha, heq⟩ := Array.mem_map.1 hd
      cases a with
      | plain a => simp [Attribute.mapContainers] at heq
      | directive d₀ =>
        obtain rfl := Attribute.directive.inj heq
        exact ⟨e₀, d₀, he₀, ha, rfl⟩
    · next hno => exact absurd hn (hno e)
  have hvalue : ∀ {d₀ : Directive} {c : Container},
      (d₀.mapContainers f id n.parent).value = some c →
      ∃ c₀, d₀.value = some c₀ ∧ c = f (d₀.valueScope id n.parent) c₀ := by
    intro d₀ c hc
    obtain ⟨c₀, hc₀, rfl⟩ := Option.map_eq_some_iff.1 hc
    exact ⟨c₀, hc₀, rfl⟩
  cases h with
  | mustache hn =>
    rw [Node.mapContainers_parent]
    unfold Node.mapContainers at hn
    split at hn
    · next c₀ hc₀ =>
      obtain rfl := NodeContent.mustache.inj hn
      exact ⟨c₀, .mustache hc₀, rfl⟩
    · simp at hn
    · next hno _ => exact absurd hn (hno c)
  | argument hn hd hc =>
    obtain ⟨e₀, d₀, he₀, hd₀, rfl⟩ := hattr hn hd
    obtain ⟨a, ha, heq⟩ := Option.map_eq_some_iff.1 hc
    cases a with
    | fixed name => simp at heq
    | dynamic c₀ =>
      obtain rfl := DirectiveArgument.dynamic.inj heq
      exact ⟨c₀, .argument he₀ hd₀ ha, rfl⟩
  | value hn hd hc hname =>
    obtain ⟨e₀, d₀, he₀, hd₀, rfl⟩ := hattr hn hd
    obtain ⟨c₀, hc₀, rfl⟩ := hvalue hc
    refine ⟨c₀, .value he₀ hd₀ hc₀ hname, ?_⟩
    have hname' : ¬ declaringDirectives.contains d₀.key.name.name = true := by
      simpa [declaringDirectives, Directive.mapContainers] using hname
    rw [Directive.valueScope, if_neg hname']
  | declaring hn hd hc hname =>
    obtain ⟨e₀, d₀, he₀, hd₀, rfl⟩ := hattr hn hd
    obtain ⟨c₀, hc₀, rfl⟩ := hvalue hc
    rw [Node.mapContainers_parent]
    refine ⟨c₀, .declaring he₀ hd₀ hc₀ hname, ?_⟩
    have hname' : declaringDirectives.contains d₀.key.name.name = true := by
      simpa [declaringDirectives, Directive.mapContainers] using hname
    rw [Directive.valueScope, if_pos hname']

namespace Tree

/-! ## Uses are put down -/

/-- The variables of an element with the identifiers that mean them. -/
def usedBy (links : List (VariableRef × Script.Ident)) (id : Nat) (e : Element) : Element :=
  { e with bindings := e.bindings.mapIdx fun i x =>
      { x with uses :=
          x.uses ++ ((links.filter (·.1 = ⟨id, i⟩)).map Prod.snd).toArray } }

/-- Each node gets the references that mean its variables. -/
theorem node?_addUses (t : Tree) (links : List (VariableRef × Script.Ident)) (id : Nat) :
    (t.addUses links).node? id = (t.node? id).map (Node.mapElement (usedBy links id)) := by
  induction links generalizing t with
  | nil =>
    have hsame : Node.mapElement (usedBy [] id) = fun n => n := by
      funext n
      obtain ⟨c, parent, extent⟩ := n
      cases c with
      | element e =>
        simp only [Node.mapElement, usedBy, List.filter_nil, List.map_nil]
        congr 3
        apply Array.ext_getElem?
        intro i
        simp [Array.getElem?_mapIdx]
      | _ => rfl
    rw [hsame, Option.map_id']
    rfl
  | cons link links ih =>
    obtain ⟨⟨element, index⟩, ident⟩ := link
    have hstep : t.addUses ((⟨element, index⟩, ident) :: links) =
        (t.addUse ⟨element, index⟩ ident).addUses links := rfl
    rw [hstep, ih, addUse, modifyElement, node?_modify]
    by_cases heq : element = id
    · subst heq
      rw [if_pos rfl, Option.map_map]
      congr 1
      funext n
      obtain ⟨c, parent, extent⟩ := n
      cases c with
      | element e =>
        simp only [Function.comp, Node.mapElement, usedBy]
        congr 3
        apply Array.ext_getElem?
        intro i
        rw [Array.getElem?_mapIdx, Array.getElem?_mapIdx, Array.getElem?_modify]
        by_cases hi : index = i
        · subst hi
          cases e.bindings[index]? <;> simp
        · cases e.bindings[i]? <;> simp [hi]
      | _ => rfl
    · rw [if_neg heq]
      congr 2
      funext e
      simp [usedBy, heq]

theorem variableAt?_addUse (t : Tree) (v w : VariableRef) (ident : Script.Ident) :
    (t.addUse v ident).variableAt? w = (t.variableAt? w).map fun x =>
      if v = w then { x with uses := x.uses.push ident } else x := by
  obtain ⟨i, j⟩ := w
  simp only [variableAt?, addUse, element?, modifyElement, node?_modify]
  split
  · next hi =>
    subst hi
    cases t.node? v.element with
    | none => rfl
    | some n =>
      cases hc : n.content with
      | element e =>
        simp only [Option.map_some, Option.bind_some, Node.mapElement, Node.element?, hc,
          Array.getElem?_modify]
        by_cases hj : v.index = j
        · subst hj
          simp
        · have hne : v ≠ ⟨v.element, j⟩ := fun heq => hj (congrArg VariableRef.index heq)
          simp [hj, hne]
      | root _ | text _ | mustache _ => simp [Node.mapElement, Node.element?, hc]
  · next hi =>
    have hne : v ≠ ⟨i, j⟩ := fun heq => hi (congrArg VariableRef.element heq)
    simp [hne]

/-- A variable gets the references that mean it, in order. -/
theorem variableAt?_addUses (t : Tree) (links : List (VariableRef × Script.Ident)) (w : VariableRef) :
    (t.addUses links).variableAt? w = (t.variableAt? w).map fun x =>
      { x with uses :=
          x.uses ++ ((links.filter (·.1 = w)).map Prod.snd).toArray } := by
  induction links generalizing t with
  | nil => simp [addUses]
  | cons link links ih =>
    have hstep : t.addUses (link :: links) = (t.addUse link.1 link.2).addUses links := rfl
    rw [hstep, ih, variableAt?_addUse, Option.map_map]
    refine congrArg (fun f => (t.variableAt? w).map f) (funext fun x => ?_)
    by_cases h : link.1 = w
    · simp [h]
    · simp [h]

theorem withoutBindings_addUses (t : Tree) (links : List (VariableRef × Script.Ident)) (id : Nat) :
    ((t.addUses links).node? id).map Node.withoutBindings =
      (t.node? id).map Node.withoutBindings := by
  induction links generalizing t with
  | nil => rfl
  | cons link links ih =>
    have hstep : t.addUses (link :: links) = (t.addUse link.1 link.2).addUses links := rfl
    rw [hstep, ih]
    refine map_node?_modify _ fun n _ => ?_
    exact Node.mapElement_mapElement ..

theorem declares_addUses (t : Tree) (links : List (VariableRef × Script.Ident)) (name : String)
    (v : VariableRef) : (t.addUses links).Declares name v ↔ t.Declares name v := by
  rw [Declares, Declares, variableAt?_addUses]
  cases t.variableAt? v with
  | none => simp
  | some x => simp

/-! ## Containers are bound -/

theorem variableAt?_bindAll (t : Tree) (v : VariableRef) :
    t.bindAll.variableAt? v = t.variableAt? v := by
  simp only [variableAt?, element?, node?_bindAll]
  cases t.node? v.element with
  | none => rfl
  | some n =>
    simp only [Option.map_some, Option.bind_some, Node.mapContainers_element?]
    cases n.element? <;> rfl

theorem declares_bindAll (t : Tree) (name : String) (v : VariableRef) :
    t.bindAll.Declares name v ↔ t.Declares name v := by
  rw [Declares, Declares, variableAt?_bindAll]

/-- The bound references with their variables are those that have a variable. -/
theorem links_eq (t : Tree) :
    t.links = t.references.filterMap fun r => r.target.map fun v => (v, r.ident) := by
  simp only [links, references, List.filterMap_flatten, List.map_map, Function.comp_def]
  rfl

theorem links_filter (t : Tree) (v : VariableRef) :
    (t.links.filter (·.1 = v)).map Prod.snd =
      (t.references.filter (·.target = some v)).map Reference.ident := by
  rw [links_eq]
  induction t.references with
  | nil => rfl
  | cons r rs ih =>
    cases hr : r.target with
    | none => simpa [hr] using ih
    | some w =>
      by_cases hw : w = v
      · simpa [hr, hw] using ih
      · simpa [hr, hw] using ih

theorem references_congr (h : ∀ id,
    (t'.node? id).map Node.withoutBindings = (t.node? id).map Node.withoutBindings) :
    t'.references = t.references := by
  have hlist : t'.nodes.toList.map Node.withoutBindings =
      t.nodes.toList.map Node.withoutBindings := by
    refine List.ext_getElem? fun id => ?_
    rw [List.getElem?_map, List.getElem?_map, Array.getElem?_toList, Array.getElem?_toList]
    exact h id
  have hmap : ∀ t : Tree, t.references = ((t.nodes.toList.map Node.withoutBindings).map fun n =>
      (n.containers.map fun c => c.references.toList).flatten).flatten := by
    intro t
    rw [references, List.map_map]
    refine congrArg List.flatten (List.map_congr_left fun n _ => ?_)
    rw [Function.comp_apply, Node.containers_withoutBindings]
  rw [hmap, hmap, hlist]

/-- Resolving a tree ties references and variables to each other, if its nodes belong together and
nothing is tied yet. -/
theorem Linked.referencesBound (h : t.Linked)
    (hfresh : ∀ v x, t.variableAt? v = some x → x.uses = #[]) (huntied : t.Untied) :
    t.resolve.ReferencesBound := by
  have hshape := t.sameShape_resolve
  have hlinked : t.resolve.Linked := h.congr hshape.size hshape.parent hshape.children
  have hbare : ∀ id, (t.resolve.node? id).map Node.withoutBindings =
      (t.bindAll.node? id).map Node.withoutBindings := fun id => by
    rw [resolve_eq]
    exact withoutBindings_addUses t.bindAll t.uses id
  have hlookup : ∀ scope name, t.resolve.lookup? scope name = t.lookup? scope name :=
    lookup?_congr hshape.size hshape.parent fun name v => by
      rw [resolve_eq]
      exact (declares_addUses t.bindAll _ name v).trans (declares_bindAll t name v)
  refine ⟨fun id n scope c hn hc => ?_, fun v x hx => ?_, fun r => mem_references⟩
  · refine ⟨_, hlinked.chainFrom_scopeChain scope, fun r hr => ?_⟩
    -- the container is one of the tree before, with its references bound
    have hmap := hbare id
    rw [hn, Option.map_some] at hmap
    obtain ⟨n₁, hn₁, heq⟩ := Option.map_eq_some_iff.1 hmap.symm
    rw [node?_bindAll] at hn₁
    obtain ⟨n₀, hn₀, rfl⟩ := Option.map_eq_some_iff.1 hn₁
    obtain ⟨c₀, hc₀, rfl⟩ := (hc.congr heq).of_mapContainers
    obtain ⟨r₀, hr₀, rfl⟩ := Array.mem_map.1 hr
    have hnone : r₀.target = none :=
      huntied id n₀ hn₀ c₀ (n₀.mem_containers.2 ⟨scope, hc₀⟩) r₀ hr₀
    dsimp only
    rw [hnone, Option.or_none, ← hlookup]
    exact ⟨fun v => lookup?_eq_some, lookup?_eq_none⟩
  · have hx' : (t.bindAll.addUses t.bindAll.links).variableAt? v = some x := by
      rwa [← uses_eq huntied, ← resolve_eq]
    rw [variableAt?_addUses, variableAt?_bindAll] at hx'
    obtain ⟨x₀, hx₀, rfl⟩ := Option.map_eq_some_iff.1 hx'
    rw [references_congr hbare, ← links_filter]
    simp [hfresh v x₀ hx₀]

end Tree
end TemplateSyntax
