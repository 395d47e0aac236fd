import TemplateSyntax.Proofs.ParseStages

/-! # What of an element is there from the outline on

Reading what is embedded in a template replaces attributes of elements by directives and declares
variables.  All else of an element stands as its tags have it: its names, its namespace, its end tag
and its children. -/

namespace TemplateSyntax

/-- An element without its attributes and variables. -/
def Element.shell (e : Element) : Element := { e with attributes := #[], bindings := #[] }

namespace Tree

variable {t : Tree} {id j : Nat}

/-- The element of an index, without its attributes and variables. -/
def shell? (t : Tree) (id : Nat) : Option Element := (t.element? id).map Element.shell

theorem shell?_eq_join (t : Tree) (id : Nat) :
    t.shell? id = ((t.node? id).map fun n => n.element?.map Element.shell).join := by
  rw [shell?, element?]
  cases t.node? id <;> rfl

theorem shell?_modify {f : Node → Node} (h : ∀ n, t.node? id = some n →
    (f n).element?.map Element.shell = n.element?.map Element.shell) :
    (t.modify id f).shell? j = t.shell? j := by
  rw [shell?_eq_join, shell?_eq_join, map_node?_modify _ h]

theorem shell?_modifyElement {f : Element → Element} (h : ∀ e, (f e).shell = e.shell) :
    (t.modifyElement id f).shell? j = t.shell? j := by
  refine shell?_modify fun n _ => ?_
  obtain ⟨content, parent, extent⟩ := n
  cases content with
  | element e => exact congrArg some (h e)
  | root _ | text _ | mustache _ => rfl

theorem shell?_addUses (links : List (VariableRef × Script.Ident)) (t : Tree) :
    (t.addUses links).shell? j = t.shell? j := by
  induction links generalizing t with
  | nil => rfl
  | cons link links ih => exact (ih (t.addUse link.1 link.2)).trans (shell?_modifyElement fun e => rfl)

theorem shell?_bindAll : t.bindAll.shell? j = t.shell? j := by
  rw [shell?_eq_join, shell?_eq_join, node?_bindAll]
  cases t.node? j with
  | none => rfl
  | some n =>
    cases he : n.element? with
    | none => simp [Node.mapContainers_element?, he]
    | some e => simp [Node.mapContainers_element?, he, Element.shell]

theorem shell?_resolve : t.resolve.shell? j = t.shell? j := by
  rw [resolve_eq]
  exact (shell?_addUses _ _).trans shell?_bindAll

end Tree

namespace Template

namespace Progress

variable {r : Reading} {p : Progress} {j : Nat}

theorem readDirective_shell? (d : Nat × Nat) : (p.readDirective r d).tree.shell? j = p.tree.shell? j := by
  unfold readDirective
  dsimp only
  split
  · exact Tree.shell?_modifyElement fun e => rfl
  · rfl

theorem readDirectives_shell? (ds : List (Nat × Nat)) :
    (ds.foldl (readDirective r) p).tree.shell? j = p.tree.shell? j := by
  induction ds generalizing p with
  | nil => rfl
  | cons d ds ih => exact ih.trans (readDirective_shell? d)

theorem readMustaches_shell? {ms : List PendingMustache} (h : MustachesThere p.tree ms) :
    (ms.foldl (readMustache r) p).tree.shell? j = p.tree.shell? j := by
  induction ms generalizing p with
  | nil => rfl
  | cons m ms ih =>
    obtain ⟨n, c, hn, hc⟩ := h m (List.mem_cons_self ..)
    refine (ih (readMustache_spec (r := r) h).2.1).trans ?_
    rw [readMustache_eq r p hn]
    refine Tree.shell?_modify fun n' hn' => ?_
    obtain rfl := Option.some.inj (hn.symm.trans hn')
    simp [Node.element?, hc]

end Progress

variable (text : String) (o : Options) (reader : Script.Reader)

/-- The elements of a template are those of its outline, but for attributes and variables. -/
theorem parse_shell? (id : Nat) :
    (parse text o reader).tree.shell? id = (outlineOf text o).tree.shell? id := by
  rw [parse_tree, Tree.shell?_resolve]
  exact (Progress.readMustaches_shell? (mustachesThere text o)).trans
    (Progress.readDirectives_shell? _)

end Template
end TemplateSyntax
