import TemplateSyntax.Proofs.ScopeEffects
import TemplateSyntax.Proofs.ScriptIdents

/-! # What patterns bind and what they hold

A pattern binds names, and it holds expressions: the defaults of what it binds, and computed keys.  Two
walks go over patterns, one to list the names, the other to declare them and to collect the uses of names
in the expressions.  Both find the same names, so that no use by such a name is left. -/

namespace TemplateSyntax.Script

/-! ## Names and expressions of patterns -/

mutual

/-- The pattern binds the identifier. -/
inductive Pat.Binds : Pat → Ident → Prop
  | ident {id : Ident} {s : Span} : Pat.Binds (.ident id s) id
  | element {s : Span} {ps : List Pat} {p : Pat} {id : Ident} (hp : p ∈ ps) (h : p.Binds id) :
    Pat.Binds (.array s ps) id
  | rest {s : Span} {p : Pat} {id : Ident} (h : p.Binds id) : Pat.Binds (.rest s p) id
  | property {s : Span} {ps : List PatProperty} {p : PatProperty} {id : Ident} (hp : p ∈ ps)
    (h : p.Binds id) : Pat.Binds (.object s ps) id
  | withDefault {s : Span} {p : Pat} {e : Expr} {id : Ident} (h : p.Binds id) :
    Pat.Binds (.withDefault s p e) id

/-- The property of a pattern binds the identifier. -/
inductive PatProperty.Binds : PatProperty → Ident → Prop
  | value {key : Key} {p : Pat} {id : Ident} (h : p.Binds id) : PatProperty.Binds (.keyValue key p) id
  | shorthand {id : Ident} : PatProperty.Binds (.shorthand id) id
  | shorthandDefault {id : Ident} {e : Expr} : PatProperty.Binds (.shorthandDefault id e) id
  | rest {p : Pat} {id : Ident} (h : p.Binds id) : PatProperty.Binds (.rest p) id

end

mutual

/-- The expression is a default or a computed key in the pattern. -/
inductive Pat.Holds : Pat → Expr → Prop
  | element {s : Span} {ps : List Pat} {p : Pat} {e : Expr} (hp : p ∈ ps) (h : p.Holds e) :
    Pat.Holds (.array s ps) e
  | rest {s : Span} {p : Pat} {e : Expr} (h : p.Holds e) : Pat.Holds (.rest s p) e
  | property {s : Span} {ps : List PatProperty} {p : PatProperty} {e : Expr} (hp : p ∈ ps)
    (h : p.Holds e) : Pat.Holds (.object s ps) e
  | default {s : Span} {p : Pat} {e : Expr} : Pat.Holds (.withDefault s p e) e
  | defaulted {s : Span} {p : Pat} {e e' : Expr} (h : p.Holds e) : Pat.Holds (.withDefault s p e') e

/-- The expression is a default or a computed key in the property of a pattern. -/
inductive PatProperty.Holds : PatProperty → Expr → Prop
  | key {p : Pat} {e : Expr} : PatProperty.Holds (.keyValue (.computed e) p) e
  | value {key : Key} {p : Pat} {e : Expr} (h : p.Holds e) : PatProperty.Holds (.keyValue key p) e
  | default {id : Ident} {e : Expr} : PatProperty.Holds (.shorthandDefault id e) e
  | rest {p : Pat} {e : Expr} (h : p.Holds e) : PatProperty.Holds (.rest p) e

end

mutual

/-- Whether all targets in a pattern are names, so that nothing is assigned to. -/
def Pat.isBinding : Pat → Bool
  | .ident _ _ => true
  | .array _ elements => areBindings elements
  | .rest _ argument => argument.isBinding
  | .object _ properties => areBindingProperties properties
  | .withDefault _ left _ => left.isBinding
  | .expr _ => false
  | .hole => true

/-- Whether all targets in patterns are names. -/
def areBindings : List Pat → Bool
  | [] => true
  | p :: ps => p.isBinding && areBindings ps

/-- Whether all targets in a property of a pattern are names. -/
def PatProperty.isBinding : PatProperty → Bool
  | .keyValue _ value => value.isBinding
  | .shorthand _ => true
  | .shorthandDefault _ _ => true
  | .rest argument => argument.isBinding

/-- Whether all targets in properties of a pattern are names. -/
def areBindingProperties : List PatProperty → Bool
  | [] => true
  | p :: ps => p.isBinding && areBindingProperties ps

end

/-! ## The names that are listed -/

mutual

theorem Pat.mem_bound_iff : ∀ (p : Pat) (id : Ident), id ∈ p.bound ↔ p.Binds id
  | .ident _ _, id => by
    rw [Pat.bound, List.mem_singleton]
    exact ⟨fun h => h ▸ .ident, fun h => by cases h; rfl⟩
  | .array _ elements, id => by
    rw [Pat.bound, mem_boundByPats_iff elements]
    refine ⟨fun ⟨_, hp, h⟩ => .element hp h, fun h => ?_⟩
    cases h with
    | element hp h => exact ⟨_, hp, h⟩
  | .rest _ argument, id => by
    rw [Pat.bound, Pat.mem_bound_iff argument]
    exact ⟨.rest, fun h => by cases h with | rest h => exact h⟩
  | .object _ properties, id => by
    rw [Pat.bound, mem_boundByProperties_iff properties]
    refine ⟨fun ⟨_, hp, h⟩ => .property hp h, fun h => ?_⟩
    cases h with
    | property hp h => exact ⟨_, hp, h⟩
  | .withDefault _ left _, id => by
    rw [Pat.bound, Pat.mem_bound_iff left]
    exact ⟨.withDefault, fun h => by cases h with | withDefault h => exact h⟩
  | .expr _, _ | .hole, _ => by
    rw [Pat.bound]
    exact ⟨fun h => absurd h List.not_mem_nil, fun h => by cases h⟩

theorem mem_boundByPats_iff : ∀ (ps : List Pat) (id : Ident),
    id ∈ boundByPats ps ↔ ∃ p ∈ ps, p.Binds id
  | [], _ => by simp [boundByPats]
  | p :: ps, id => by
    rw [boundByPats, List.mem_append, Pat.mem_bound_iff p, mem_boundByPats_iff ps]
    simp

theorem PatProperty.mem_bound_iff : ∀ (p : PatProperty) (id : Ident), id ∈ p.bound ↔ p.Binds id
  | .keyValue _ value, id => by
    rw [PatProperty.bound, Pat.mem_bound_iff value]
    exact ⟨.value, fun h => by cases h with | value h => exact h⟩
  | .shorthand _, id => by
    rw [PatProperty.bound, List.mem_singleton]
    exact ⟨fun h => h ▸ .shorthand, fun h => by cases h; rfl⟩
  | .shorthandDefault _ _, id => by
    rw [PatProperty.bound, List.mem_singleton]
    exact ⟨fun h => h ▸ .shorthandDefault, fun h => by cases h; rfl⟩
  | .rest argument, id => by
    rw [PatProperty.bound, Pat.mem_bound_iff argument]
    exact ⟨.rest, fun h => by cases h with | rest h => exact h⟩

theorem mem_boundByProperties_iff : ∀ (ps : List PatProperty) (id : Ident),
    id ∈ boundByProperties ps ↔ ∃ p ∈ ps, p.Binds id
  | [], _ => by simp [boundByProperties]
  | p :: ps, id => by
    rw [boundByProperties, List.mem_append, PatProperty.mem_bound_iff p, mem_boundByProperties_iff ps]
    simp

end

/-! ## The names that are declared -/

/-- The effect has uses from the expressions only of which `holds` is true, with all names that these
declare, and declares the identifiers of which `binds` is true. -/
structure Effect.Covers (effect : Effect) (isVar : Bool) (holds : Expr → Prop) (binds : Ident → Prop) :
    Prop where
  sources : ∀ u ∈ effect.uses, ∃ e, holds e ∧ u ∈ e.effect.uses ∧ e.effect.names ⊆ effect.names
  names : ∀ id, binds id → (isVar, id.name) ∈ effect.names

namespace Effect.Covers

variable {effect effect' : Effect} {isVar : Bool} {holds holds' : Expr → Prop}
  {binds binds' : Ident → Prop}

theorem of_eq (h : effect.Covers isVar holds binds) (heq : effect' = effect)
    (hholds : ∀ e, holds e → holds' e) (hbinds : ∀ id, binds' id → binds id) :
    effect'.Covers isVar holds' binds' := by
  subst heq
  refine ⟨fun u hu => ?_, fun id hid => h.names id (hbinds id hid)⟩
  obtain ⟨e, he, hrest⟩ := h.sources u hu
  exact ⟨e, hholds e he, hrest⟩

theorem nothing : ({} : Effect).Covers isVar (fun _ => False) fun _ => False := ⟨nofun, nofun⟩

theorem name (id : Ident) :
    (Effect.ofName isVar id.name).Covers isVar (fun _ => False) (· = id) :=
  ⟨nofun, fun _ h => h ▸ List.mem_singleton_self _⟩

theorem expr (e : Expr) : e.effect.Covers isVar (· = e) fun _ => False :=
  ⟨fun _ hu => ⟨e, rfl, hu, List.Subset.refl _⟩, nofun⟩

theorem andThen (h : effect.Covers isVar holds binds) (h' : effect'.Covers isVar holds' binds') :
    (effect.andThen effect').Covers isVar (fun e => holds e ∨ holds' e)
      fun id => binds id ∨ binds' id := by
  refine ⟨fun u hu => ?_, fun id hid => ?_⟩
  · rcases List.mem_append.1 hu with hu | hu
    · obtain ⟨e, he, huses, hnames⟩ := h'.sources u hu
      exact ⟨e, .inr he, huses, List.subset_append_of_subset_left _ hnames⟩
    · obtain ⟨e, he, huses, hnames⟩ := h.sources u hu
      exact ⟨e, .inl he, huses, List.subset_append_of_subset_right _ hnames⟩
  · rcases hid with hid | hid
    · exact List.mem_append_right _ (h.names id hid)
    · exact List.mem_append_left _ (h'.names id hid)

end Effect.Covers

section
variable (isVar : Bool)

mutual

theorem Pat.bindEffect_covers : ∀ p : Pat, p.isBinding = true →
    (p.bindEffect isVar).Covers isVar p.Holds p.Binds
  | .ident id _, _ => by
    refine (Effect.Covers.name id).of_eq (by rw [Pat.bindEffect]) nofun fun _ h => ?_
    cases h
    rfl
  | .array _ elements, h => by
    rw [Pat.isBinding] at h
    refine (patsBindEffect_covers elements h).of_eq (by rw [Pat.bindEffect])
      (fun e ⟨p, hp, he⟩ => .element hp he) fun _ h => ?_
    cases h with
    | element hp h => exact ⟨_, hp, h⟩
  | .rest _ argument, h => by
    rw [Pat.isBinding] at h
    refine (argument.bindEffect_covers h).of_eq (by rw [Pat.bindEffect]) (fun _ => .rest)
      fun _ h => ?_
    cases h with
    | rest h => exact h
  | .object _ properties, h => by
    rw [Pat.isBinding] at h
    refine (patPropertiesBindEffect_covers properties h).of_eq (by rw [Pat.bindEffect])
      (fun e ⟨p, hp, he⟩ => .property hp he) fun _ h => ?_
    cases h with
    | property hp h => exact ⟨_, hp, h⟩
  | .withDefault _ left right, h => by
    rw [Pat.isBinding] at h
    refine ((left.bindEffect_covers h).andThen (.expr right)).of_eq (by rw [Pat.bindEffect])
      (fun e he => ?_) fun _ h => ?_
    · rcases he with he | rfl
      · exact .defaulted he
      · exact .default
    · cases h with
      | withDefault h => exact .inl h
  | .expr _, h => by simp [Pat.isBinding] at h
  | .hole, _ => Effect.Covers.nothing.of_eq (by rw [Pat.bindEffect]) nofun fun _ h => nomatch h

theorem patsBindEffect_covers : ∀ ps : List Pat, areBindings ps = true →
    (patsBindEffect isVar ps).Covers isVar (fun e => ∃ p ∈ ps, p.Holds e) fun id => ∃ p ∈ ps, p.Binds id
  | [], _ => Effect.Covers.nothing.of_eq (by rw [patsBindEffect]) nofun fun _ h => by simp at h
  | p :: ps, h => by
    rw [areBindings, Bool.and_eq_true] at h
    refine ((p.bindEffect_covers h.1).andThen (patsBindEffect_covers ps h.2)).of_eq
      (by rw [patsBindEffect]) (fun e he => ?_) fun id h => ?_
    · simpa using he
    · simpa using h

theorem PatProperty.bindEffect_covers : ∀ p : PatProperty, p.isBinding = true →
    (p.bindEffect isVar).Covers isVar p.Holds p.Binds
  | .keyValue key value, h => by
    rw [PatProperty.isBinding] at h
    cases key with
    | fixed s =>
      refine (value.bindEffect_covers h).of_eq
        (by rw [PatProperty.bindEffect, Key.effect, Effect.nothing_andThen]) (fun _ => .value)
        fun _ h => ?_
      cases h with
      | value h => exact h
    | computed e =>
      refine ((Effect.Covers.expr e).andThen (value.bindEffect_covers h)).of_eq
        (by rw [PatProperty.bindEffect, Key.effect]) (fun e he => ?_) fun _ h => ?_
      · rcases he with rfl | he
        · exact .key
        · exact .value he
      · cases h with
        | value h => exact .inr h
  | .shorthand id, _ => by
    refine (Effect.Covers.name id).of_eq (by rw [PatProperty.bindEffect]) nofun fun _ h => ?_
    cases h
    rfl
  | .shorthandDefault id value, _ => by
    refine ((Effect.Covers.name id).andThen (.expr value)).of_eq (by rw [PatProperty.bindEffect])
      (fun e he => ?_) fun _ h => ?_
    · rcases he with he | rfl
      · exact he.elim
      · exact .default
    · cases h
      exact .inl rfl
  | .rest argument, h => by
    rw [PatProperty.isBinding] at h
    refine (argument.bindEffect_covers h).of_eq (by rw [PatProperty.bindEffect])
      (fun _ => .rest) fun _ h => ?_
    cases h with
    | rest h => exact h

theorem patPropertiesBindEffect_covers : ∀ ps : List PatProperty, areBindingProperties ps = true →
    (patPropertiesBindEffect isVar ps).Covers isVar (fun e => ∃ p ∈ ps, p.Holds e)
      fun id => ∃ p ∈ ps, p.Binds id
  | [], _ => Effect.Covers.nothing.of_eq (by rw [patPropertiesBindEffect]) nofun fun _ h => by simp at h
  | p :: ps, h => by
    rw [areBindingProperties, Bool.and_eq_true] at h
    refine ((p.bindEffect_covers h.1).andThen (patPropertiesBindEffect_covers ps h.2)).of_eq
      (by rw [patPropertiesBindEffect]) (fun e he => ?_) fun id h => ?_
    · simpa using he
    · simpa using h

end

end

/-! ## References -/

/-- Among the identifiers of the expression is this one. -/
def Expr.Mentions (e : Expr) (id : Ident) : Prop := ¬ e.All (· ≠ id)

theorem Expr.mentions_of_mem_references {e : Expr} {u : Use} (h : u ∈ e.references) :
    e.Mentions u.id := fun hall => Expr.references_all hall u h rfl

/-- The references of patterns are references of their defaults and computed keys, by other names than
those that the patterns bind. -/
theorem mem_patReferences {pats : List Pat} (hpats : areBindings pats = true) {u : Use}
    (hu : u ∈ patReferences pats) :
    (∃ p ∈ pats, ∃ e, p.Holds e ∧ u ∈ e.references) ∧
      ∀ p ∈ pats, ∀ id, p.Binds id → id.name ≠ u.id.name := by
  have hcovers := patsBindEffect_covers false pats hpats
  obtain ⟨huses, hname⟩ := mem_patReferences_iff.1 hu
  constructor
  · obtain ⟨e, ⟨p, hp, he⟩, hmem, hsubset⟩ := hcovers.sources u huses
    have hfree : u.id.name ∉ e.effect.names.map Prod.snd := fun h => hname (List.map_subset _ hsubset h)
    exact ⟨p, hp, e, he, Expr.mem_references_iff.2 ⟨hmem, hfree⟩⟩
  · intro p hp id hid heq
    have hmem := hcovers.names id ⟨p, hp, hid⟩
    exact hname (heq ▸ List.mem_map_of_mem hmem)

/-- Uses in the order of their places. -/
def byPlace (us : List Use) : List Use := us.mergeSort fun a b => a.id.span.start ≤ b.id.span.start

theorem byPlace_trans (a b c : Use) : decide (a.id.span.start ≤ b.id.span.start) = true →
    decide (b.id.span.start ≤ c.id.span.start) = true →
    decide (a.id.span.start ≤ c.id.span.start) = true := by
  simp only [decide_eq_true_eq]
  exact Nat.le_trans

theorem byPlace_total (a b : Use) :
    (decide (a.id.span.start ≤ b.id.span.start) || decide (b.id.span.start ≤ a.id.span.start)) =
      true := by
  simp only [Bool.or_eq_true, decide_eq_true_eq]
  exact Nat.le_total ..

theorem byPlace_pairwise (us : List Use) :
    (byPlace us).Pairwise fun u v => u.id.span.start ≤ v.id.span.start :=
  (List.pairwise_mergeSort byPlace_trans byPlace_total us).imp of_decide_eq_true

theorem Acts.finish_root_sorted {walk : Frames → Frames} {effect : Effect} (h : Acts walk effect)
    (names : List String) :
    (walk (Frames.root names)).finish.Pairwise fun a b => a.id.span.start ≤ b.id.span.start := by
  rw [h.finish_root]
  exact byPlace_pairwise _

end TemplateSyntax.Script
