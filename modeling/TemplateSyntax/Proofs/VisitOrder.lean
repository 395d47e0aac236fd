import Mathlib.Data.List.Forall2
import TemplateSyntax.Proofs.BoundNames

/-! # The order of a walk

A walk over a piece of syntax adds to the frames that it finds, and to each only what the piece says:
uses and declarations to the innermost one, and variables to the innermost one of a function.  So
pieces of the same scope may be walked over in any order: the frames come out alike, and in the end the
same references are left. -/

namespace TemplateSyntax.Script

/-! ## Pieces of syntax -/

/-- A piece of syntax that is walked over. -/
inductive Node where
  | expr (e : Expr)
  | arg (a : Arg)
  | key (k : Key)
  | property (p : Property)
  /-- A pattern that is declared. -/
  | pattern (isVar : Bool) (p : Pat)
  | patProperty (isVar : Bool) (p : PatProperty)
  /-- A pattern that is assigned to. -/
  | target (p : Pat)
  | targetProperty (p : PatProperty)
  | func (f : Func)
  | cls (c : Class)
  | member (m : Member)
  | declarator (isVar : Bool) (d : Declarator)
  | forHead (x : ForHead)
  | stmt (x : Stmt)

namespace Node

/-- Walks over a piece. -/
def visit : Node → Frames → Frames
  | expr e => e.visit
  | arg a => a.visit
  | key k => k.visit
  | property p => p.visit
  | pattern isVar p => p.declare isVar
  | patProperty isVar p => p.declare isVar
  | target p => p.write
  | targetProperty p => p.write
  | func f => f.visit
  | cls c => c.visit
  | member m => m.visit
  | declarator isVar d => d.visit isVar
  | forHead x => x.visit
  | stmt x => x.visit

/-- The effect of a piece. -/
def effect : Node → Effect
  | expr e => e.effect
  | arg a => a.effect
  | key k => k.effect
  | property p => p.effect
  | pattern isVar p => p.bindEffect isVar
  | patProperty isVar p => p.bindEffect isVar
  | target p => p.writeEffect
  | targetProperty p => p.writeEffect
  | func f => f.effect
  | cls c => c.effect
  | member m => m.effect
  | declarator isVar d => d.effect isVar
  | forHead x => x.effect
  | stmt x => x.effect

theorem visit_acts : ∀ n : Node, Acts n.visit n.effect
  | expr e => e.visit_acts
  | arg a => a.visit_acts
  | key k => k.visit_acts
  | property p => p.visit_acts
  | pattern isVar p => p.declare_acts isVar
  | patProperty isVar p => p.declare_acts isVar
  | target p => p.write_acts
  | targetProperty p => p.write_acts
  | func f => f.visit_acts
  | cls c => c.visit_acts
  | member m => m.visit_acts
  | declarator isVar d => d.visit_acts isVar
  | forHead x => x.visit_acts
  | stmt x => x.visit_acts

/-- Walks over pieces in a row. -/
def visitAll (ns : List Node) (fs : Frames) : Frames := ns.foldl (fun fs n => n.visit fs) fs

/-- The effect of pieces in a row. -/
def effects : List Node → Effect
  | [] => {}
  | n :: ns => n.effect.andThen (effects ns)

theorem visitAll_acts : ∀ ns : List Node, Acts (visitAll ns) (effects ns)
  | [] => .stay
  | n :: ns => n.visit_acts.andThen (visitAll_acts ns)

end Node

/-! ## Where names and uses go -/

/-- The frame with more names and uses. -/
def Frame.adding (names : List String) (uses : List Use) (f : Frame) : Frame :=
  { f with declared := names ++ f.declared, pending := uses ++ f.pending }

@[simp] theorem Frame.adding_nil (f : Frame) : f.adding [] [] = f := rfl

@[simp] theorem Frame.map_adding_nil (f : Option Frame) : f.map (Frame.adding [] []) = f := by
  cases f <;> rfl

theorem Frame.adding_adding (names names' : List String) (uses uses' : List Use) (f : Frame) :
    (f.adding names uses).adding names' uses' = f.adding (names' ++ names) (uses' ++ uses) := by
  simp [Frame.adding]

namespace Frames

variable {fs gs : Frames}

/-- The place of the frame that a name is declared in: the innermost one of a function for a variable,
and the innermost one of all for any other name. -/
def home (fs : Frames) (isVar : Bool) : Nat := if isVar then fs.findIdx Frame.isFunction else 0

/-- The names that are declared in the frame at a place. -/
def namesAt (fs : Frames) (names : List (Bool × String)) (i : Nat) : List String :=
  (names.filter fun n => fs.home n.1 == i).map Prod.snd

theorem mem_namesAt {names : List (Bool × String)} {i : Nat} {name : String} :
    name ∈ fs.namesAt names i ↔ ∃ isVar, (isVar, name) ∈ names ∧ fs.home isVar = i := by
  simp [namesAt]

/-- Which frame a name goes to depends only on which frames are those of functions. -/
theorem home_congr (h : gs.map Frame.isFunction = fs.map Frame.isFunction) (isVar : Bool) :
    gs.home isVar = fs.home isVar := by
  have hfind (hs : Frames) : hs.findIdx Frame.isFunction = (hs.map Frame.isFunction).findIdx id := by
    rw [List.findIdx_map]
    rfl
  rw [home, home, hfind gs, h, ← hfind]

theorem isFunction_of_adding {names : Nat → List String} {uses : Nat → List Use}
    (h : ∀ i, gs[i]? = fs[i]?.map (Frame.adding (names i) (uses i))) :
    gs.map Frame.isFunction = fs.map Frame.isFunction := by
  refine List.ext_getElem? fun i => ?_
  rw [List.getElem?_map, List.getElem?_map, h, Option.map_map]
  rfl

theorem getElem?_declareVar (name : String) (fs : Frames) (i : Nat) :
    (fs.declareVar name)[i]? =
      fs[i]?.map (Frame.adding (if fs.findIdx Frame.isFunction == i then [name] else []) []) := by
  induction fs generalizing i with
  | nil => rfl
  | cons f fs ih =>
    rw [declareVar, List.findIdx_cons]
    cases hf : f.isFunction with
    | true => cases i <;> simp [Frame.adding, hf]
    | false => cases i <;> simp [ih]

theorem getElem?_declare (n : Bool × String) (fs : Frames) (i : Nat) :
    (fs.declare n.1 n.2)[i]? = fs[i]?.map (Frame.adding (fs.namesAt [n] i) []) := by
  obtain ⟨isVar, name⟩ := n
  cases isVar with
  | true =>
    refine (getElem?_declareVar name fs i).trans ?_
    simp only [namesAt, home, if_true, List.filter_cons, List.filter_nil]
    split <;> rfl
  | false =>
    cases fs with
    | nil => rfl
    | cons f fs => cases i <;> simp [declare, declareHere, namesAt, home, Frame.adding]

theorem getElem?_addNames (names : List (Bool × String)) (fs : Frames) (i : Nat) :
    (fs.addNames names)[i]? = fs[i]?.map (Frame.adding (fs.namesAt names i) []) := by
  induction names generalizing i with
  | nil => simp [namesAt]
  | cons n names ih =>
    have hhome := home_congr (isFunction_of_adding ih)
    have hnames : (fs.addNames names).namesAt [n] i ++ fs.namesAt names i =
        fs.namesAt (n :: names) i := by
      simp only [namesAt, hhome, List.filter_cons, List.filter_nil]
      split <;> rfl
    rw [addNames_cons, getElem?_declare, ih, Option.map_map, ← hnames]
    exact congrArg (fs[i]?.map ·) (funext fun f => f.adding_adding ..)

theorem getElem?_addUses (uses : List Use) (fs : Frames) (i : Nat) :
    (fs.addUses uses)[i]? = fs[i]?.map (Frame.adding [] (if i = 0 then uses else [])) := by
  cases fs with
  | nil => rfl
  | cons f fs =>
    cases i with
    | zero => rfl
    | succ i => simp

end Frames

/-- An effect adds to each frame what goes there. -/
theorem Effect.getElem?_apply (e : Effect) (fs : Frames) (i : Nat) :
    (e.apply fs)[i]? =
      fs[i]?.map (Frame.adding (fs.namesAt e.names i) (if i = 0 then e.uses else [])) := by
  rw [apply, Frames.getElem?_addUses, Frames.getElem?_addNames, Option.map_map]
  refine congrArg (fs[i]?.map ·) (funext fun f => (f.adding_adding ..).trans ?_)
  rw [List.nil_append, List.append_nil]

/-- Frames have grown by uses and names: the stack is as high as it was, with the same scopes of
functions; the uses are in the innermost frame, in front of those that were there, and in front of the
names that a frame had are those that go to it. -/
structure Frames.Grown (uses : List Use) (names : List (Bool × String)) (fs gs : Frames) : Prop where
  length : gs.length = fs.length
  isFunction : gs.map Frame.isFunction = fs.map Frame.isFunction
  pending : gs.map Frame.pending = (fs.map Frame.pending).modifyHead (uses ++ ·)
  declared : ∀ i, gs[i]?.map Frame.declared = fs[i]?.map fun f => fs.namesAt names i ++ f.declared

theorem Effect.apply_grown (e : Effect) (fs : Frames) :
    Frames.Grown e.uses e.names fs (e.apply fs) := by
  have hmarks := Frames.isFunction_of_adding (e.getElem?_apply fs)
  refine ⟨by simpa using congrArg List.length hmarks, hmarks, ?_, fun i => ?_⟩
  · refine List.ext_getElem? fun i => ?_
    rw [List.getElem?_map, e.getElem?_apply, Option.map_map]
    cases fs with
    | nil => rfl
    | cons f fs => cases i <;> simp [Frame.adding, Function.comp_def]
  · rw [e.getElem?_apply, Option.map_map]
    rfl

/-! ## What declarations add -/

section
variable {isVar : Bool}

/-- What one of a row declares is declared by the row. -/
theorem Effect.names_subset_row {α : Type} {effect : α → Effect} {row : List α → Effect}
    (hrow : ∀ a as, row (a :: as) = (effect a).andThen (row as)) {a : α} {as : List α}
    (ha : a ∈ as) : (effect a).names ⊆ (row as).names := by
  induction ha with
  | head as =>
    rw [hrow]
    exact List.subset_append_right ..
  | tail b _ ih =>
    rw [hrow]
    exact List.subset_append_of_subset_left _ ih

mutual

theorem Pat.Binds.mem_names : ∀ {p : Pat} {id : Ident}, p.Binds id →
    (isVar, id.name) ∈ (p.bindEffect isVar).names
  | _, _, .ident => by
    rw [Pat.bindEffect]
    exact List.mem_singleton_self _
  | _, _, .element hp h => by
    rw [Pat.bindEffect]
    exact Effect.names_subset_row (fun _ _ => by rw [patsBindEffect]) hp h.mem_names
  | _, _, .rest h => by
    rw [Pat.bindEffect]
    exact h.mem_names
  | _, _, .property hp h => by
    rw [Pat.bindEffect]
    exact Effect.names_subset_row (fun _ _ => by rw [patPropertiesBindEffect]) hp h.mem_names
  | _, _, .withDefault h => by
    rw [Pat.bindEffect]
    exact List.mem_append_right _ h.mem_names

theorem PatProperty.Binds.mem_names : ∀ {p : PatProperty} {id : Ident}, p.Binds id →
    (isVar, id.name) ∈ (p.bindEffect isVar).names
  | _, _, .value h => by
    rw [PatProperty.bindEffect]
    exact List.mem_append_left _ h.mem_names
  | _, _, .shorthand => by
    rw [PatProperty.bindEffect]
    exact List.mem_singleton_self _
  | _, _, .shorthandDefault => by
    rw [PatProperty.bindEffect]
    exact List.mem_append_right _ (List.mem_singleton_self _)
  | _, _, .rest h => by
    rw [PatProperty.bindEffect]
    exact h.mem_names

end

end

/-- The piece is a declaration of the name, as a variable of the function or in the innermost scope.
Parameters are patterns that are declared. -/
inductive Node.Introduces : Node → Bool → String → Prop
  | pattern {isVar : Bool} {p : Pat} {id : Ident} (h : p.Binds id) :
    Introduces (.pattern isVar p) isVar id.name
  | patProperty {isVar : Bool} {p : PatProperty} {id : Ident} (h : p.Binds id) :
    Introduces (.patProperty isVar p) isVar id.name
  | declarator {isVar : Bool} {p : Pat} {init : List Expr} {id : Ident} (h : p.Binds id) :
    Introduces (.declarator isVar (.mk p init)) isVar id.name
  | varDecl {s : Span} {isVar : Bool} {ds : List Declarator} {p : Pat} {init : List Expr} {id : Ident}
    (hd : .mk p init ∈ ds) (h : p.Binds id) : Introduces (.stmt (.varDecl s isVar ds)) isVar id.name
  | forHead {isVar : Bool} {ds : List Declarator} {p : Pat} {init : List Expr} {id : Ident}
    (hd : .mk p init ∈ ds) (h : p.Binds id) :
    Introduces (.forHead (.declaration isVar ds)) isVar id.name
  | fnDecl {s : Span} {name : Ident} {f : Func} :
    Introduces (.stmt (.fnDecl s name f)) false name.name
  | classDecl {s : Span} {name : Ident} {c : Class} :
    Introduces (.stmt (.classDecl s name c)) false name.name

theorem Node.Introduces.mem_names {n : Node} {isVar : Bool} {name : String}
    (h : n.Introduces isVar name) : (isVar, name) ∈ n.effect.names := by
  have hdeclarator {p : Pat} {init : List Expr} {id : Ident} {isVar : Bool} (h : p.Binds id) :
      (isVar, id.name) ∈ ((Declarator.mk p init).effect isVar).names := by
    rw [Declarator.effect]
    exact List.mem_append_right _ h.mem_names
  have hrow {d : Declarator} {ds : List Declarator} {isVar : Bool} (hd : d ∈ ds) :
      (d.effect isVar).names ⊆ (declaratorsEffect isVar ds).names :=
    Effect.names_subset_row (fun _ _ => by rw [declaratorsEffect]) hd
  cases h with
  | pattern h => exact h.mem_names
  | patProperty h => exact h.mem_names
  | declarator h => exact hdeclarator h
  | varDecl hd h =>
    rw [Node.effect, Stmt.effect]
    exact hrow hd (hdeclarator h)
  | forHead hd h =>
    rw [Node.effect, ForHead.effect]
    exact hrow hd (hdeclarator h)
  | fnDecl =>
    rw [Node.effect, Stmt.effect]
    exact List.mem_append_right _ (List.mem_singleton_self _)
  | classDecl =>
    rw [Node.effect, Stmt.effect]
    exact List.mem_append_right _ (List.mem_singleton_self _)

/-! ## Uses in another order -/

/-- Lists of uses that are related have the same uses, maybe in another order, and so has what is made
of them alike. -/
structure Reordering (R : List Use → List Use → Prop) : Prop where
  refl : ∀ us, R us us
  append : ∀ {us us' vs vs'}, R us us' → R vs vs' → R (us ++ vs) (us' ++ vs')
  filter : ∀ {us us'} (p : Use → Bool), R us us' → R (us.filter p) (us'.filter p)

theorem perm_reordering : Reordering List.Perm where
  refl := List.Perm.refl
  append := List.Perm.append
  filter p h := h.filter p

/-- The uses that begin at any one place are the same, in the same order. -/
def SamePlaces (us vs : List Use) : Prop :=
  ∀ k, us.filter (·.id.span.start == k) = vs.filter (·.id.span.start == k)

namespace SamePlaces

variable {us vs : List Use}

theorem reordering : Reordering SamePlaces where
  refl _ _ := rfl
  append h h' k := by rw [List.filter_append, List.filter_append, h, h']
  filter p h k := by rw [List.filter_comm, h, List.filter_comm]

theorem symm (h : SamePlaces us vs) : SamePlaces vs us := fun k => (h k).symm

theorem mem (h : SamePlaces us vs) {u : Use} (hu : u ∈ us) : u ∈ vs := by
  have hplace : u ∈ us.filter (·.id.span.start == u.id.span.start) :=
    List.mem_filter.2 ⟨hu, beq_self_eq_true _⟩
  rw [h] at hplace
  exact (List.mem_filter.1 hplace).1

theorem reverse (h : SamePlaces us vs) : SamePlaces us.reverse vs.reverse := fun k => by
  rw [List.filter_reverse, List.filter_reverse, h]

/-- Uses at different places may change their order. -/
theorem append_comm (h : ∀ u ∈ us, ∀ v ∈ vs, u.id.span.start ≠ v.id.span.start) :
    SamePlaces (us ++ vs) (vs ++ us) := by
  intro k
  rw [List.filter_append, List.filter_append]
  cases hus : us.filter (·.id.span.start == k) with
  | nil => simp
  | cons u _ =>
    obtain ⟨hu, huk⟩ := List.mem_filter.1 (hus ▸ List.mem_cons_self ..)
    have hvs : vs.filter (·.id.span.start == k) = [] := by
      refine List.filter_eq_nil_iff.2 fun v hv hvk => h u hu v hv ?_
      rw [eq_of_beq huk, eq_of_beq hvk]
    simp [hvs]

/-- There is only one order by place that keeps the order at each place. -/
theorem eq_of_sorted (h : SamePlaces us vs)
    (hus : us.Pairwise fun u v => u.id.span.start ≤ v.id.span.start)
    (hvs : vs.Pairwise fun u v => u.id.span.start ≤ v.id.span.start) : us = vs := by
  induction us generalizing vs with
  | nil =>
    cases vs with
    | nil => rfl
    | cons v vs => exact absurd (h.symm.mem (List.mem_cons_self ..)) List.not_mem_nil
  | cons u us ih =>
    cases vs with
    | nil => exact absurd (h.mem (List.mem_cons_self ..)) List.not_mem_nil
    | cons v vs =>
      obtain ⟨hfirst, hustail⟩ := List.pairwise_cons.1 hus
      obtain ⟨hfirst', hvstail⟩ := List.pairwise_cons.1 hvs
      -- each of the two first uses is among those of the other list, so that they are at one place
      have hplace : u.id.span.start = v.id.span.start := by
        refine Nat.le_antisymm ?_ ?_
        · rcases List.mem_cons.1 (h.symm.mem (List.mem_cons_self ..)) with rfl | hv
          · exact Nat.le_refl _
          · exact hfirst v hv
        · rcases List.mem_cons.1 (h.mem (List.mem_cons_self ..)) with rfl | hu
          · exact Nat.le_refl _
          · exact hfirst' u hu
      obtain rfl : u = v := by
        have hhead := h u.id.span.start
        rw [List.filter_cons_of_pos (by simp), List.filter_cons_of_pos (by simp [hplace])] at hhead
        exact (List.cons.inj hhead).1
      have htail : SamePlaces us vs := by
        intro k
        have hk := h k
        rw [List.filter_cons, List.filter_cons] at hk
        split at hk
        · exact (List.cons.inj hk).2
        · exact hk
      rw [ih htail hustail hvstail]

/-- Putting uses in order keeps the order at each place. -/
theorem byPlace (us : List Use) : SamePlaces (byPlace us) us := by
  intro k
  have hsub : (us.filter (·.id.span.start == k)).Sublist (Script.byPlace us) := by
    refine List.sublist_mergeSort byPlace_trans byPlace_total ?_ List.filter_sublist
    refine List.pairwise_of_forall_mem_list fun u hu v hv => ?_
    have huk : u.id.span.start = k := by simpa using List.of_mem_filter hu
    have hvk : v.id.span.start = k := by simpa using List.of_mem_filter hv
    exact decide_eq_true (by omega)
  have hfilter : (us.filter (·.id.span.start == k)).Sublist
      ((Script.byPlace us).filter (·.id.span.start == k)) := by
    simpa using hsub.filter (·.id.span.start == k)
  exact (hfilter.eq_of_length ((List.mergeSort_perm us _).filter _).length_eq.symm).symm

theorem byPlace_eq (h : SamePlaces us vs) : Script.byPlace us = Script.byPlace vs := by
  have hsame : SamePlaces (Script.byPlace us) (Script.byPlace vs) := fun k => by
    rw [byPlace us, h, byPlace vs]
  exact hsame.eq_of_sorted (byPlace_pairwise us) (byPlace_pairwise vs)

end SamePlaces

/-! ## Frames that are alike -/

/-- Two frames of the same scope, with the same names, and with related uses. -/
structure Frame.Alike (R : List Use → List Use → Prop) (f g : Frame) : Prop where
  isFunction : f.isFunction = g.isFunction
  declared : ∀ name, name ∈ f.declared ↔ name ∈ g.declared
  pending : R f.pending g.pending

/-- The frames of two stacks are alike, one by one. -/
abbrev Frames.Alike (R : List Use → List Use → Prop) : Frames → Frames → Prop :=
  List.Forall₂ (Frame.Alike R)

section
variable {R : List Use → List Use → Prop} (hR : Reordering R)
include hR

theorem Frame.Alike.refl (f : Frame) : f.Alike R f := ⟨rfl, fun _ => Iff.rfl, hR.refl _⟩

/-- The same uses leave frames that are alike. -/
theorem Frame.Alike.unresolved {f g : Frame} (h : f.Alike R g) {us vs : List Use} (hus : R us vs) :
    R (Frames.unresolved { f with pending := us ++ f.pending })
      (Frames.unresolved { g with pending := vs ++ g.pending }) := by
  have hkeep : (fun u : Use => !f.declared.contains u.id.name) =
      fun u => !g.declared.contains u.id.name := by
    funext u
    rw [List.contains_eq_mem, List.contains_eq_mem, decide_eq_decide.2 (h.declared _)]
  unfold Frames.unresolved
  dsimp only
  rw [hkeep]
  exact hR.filter _ (hR.append hus h.pending)

namespace Frames.Alike

variable {fs gs : Frames}

theorem refl (fs : Frames) : fs.Alike R fs := List.forall₂_same.2 fun f _ => Frame.Alike.refl hR f

omit hR in
theorem map_isFunction (h : fs.Alike R gs) : gs.map Frame.isFunction = fs.map Frame.isFunction := by
  induction h with
  | nil => rfl
  | cons hf _ ih => rw [List.map_cons, List.map_cons, ih, hf.isFunction]

/-- Effects that differ in the order of uses and names only keep frames alike. -/
theorem apply (h : fs.Alike R gs) {e e' : Effect} (huses : R e.uses e'.uses)
    (hnames : ∀ n, n ∈ e.names ↔ n ∈ e'.names) : (e.apply fs).Alike R (e'.apply gs) := by
  obtain ⟨hlength, hat⟩ := List.forall₂_iff_get.1 h
  refine List.forall₂_iff_get.2 ⟨?_, fun i hi hi' => ?_⟩
  · rw [(e.apply_grown fs).length, (e'.apply_grown gs).length, hlength]
  · have hi : i < fs.length := (e.apply_grown fs).length ▸ hi
    have hi' : i < gs.length := (e'.apply_grown gs).length ▸ hi'
    obtain ⟨hisFunction, hdeclared, hpending⟩ := hat i hi hi'
    have hf := e.getElem?_apply fs i
    have hg := e'.getElem?_apply gs i
    rw [List.getElem?_eq_getElem ‹_›, List.getElem?_eq_getElem ‹_›, Option.map_some,
      Option.some.injEq] at hf hg
    rw [List.get_eq_getElem, List.get_eq_getElem, hf, hg]
    refine ⟨hisFunction, fun name => ?_, ?_⟩
    · simp only [Frame.adding, List.mem_append, mem_namesAt, hnames, home_congr h.map_isFunction]
      exact or_congr Iff.rfl (hdeclared name)
    · refine hR.append ?_ hpending
      split
      · exact huses
      · exact hR.refl _

theorem opened (h : fs.Alike R gs) (isFunction : Bool) :
    (fs.opened isFunction).Alike R (gs.opened isFunction) := .cons (Frame.Alike.refl hR _) h

theorem closed (h : fs.Alike R gs) : fs.closed.Alike R gs.closed := by
  cases h with
  | nil => exact .nil
  | cons hf h =>
    cases h with
    | nil => exact .cons hf .nil
    | cons hg h =>
      refine .cons ⟨hg.isFunction, hg.declared, hR.append ?_ hg.pending⟩ h
      exact hf.unresolved hR (hR.refl [])

/-- The uses that leave the outermost frames, before they are put in order by place. -/
theorem foldl_unresolved (h : fs.Alike R gs) {us vs : List Use} (hus : R us vs) :
    R (fs.foldl (fun uses (g : Frame) => unresolved { g with pending := uses ++ g.pending }) us)
      (gs.foldl (fun uses (g : Frame) => unresolved { g with pending := uses ++ g.pending }) vs) := by
  induction h generalizing us vs with
  | nil => exact hus
  | cons hf _ ih => exact ih (hf.unresolved hR hus)

theorem finish (h : fs.Alike R gs) : ∃ us vs, R us vs ∧
    fs.finish = byPlace us.reverse ∧ gs.finish = byPlace vs.reverse := by
  cases h with
  | nil => exact ⟨[], [], hR.refl [], rfl, rfl⟩
  | cons hf h => exact ⟨_, _, foldl_unresolved hR h (hf.unresolved hR (hR.refl [])), rfl, rfl⟩

end Frames.Alike

end

namespace Frames.Alike

variable {fs gs : Frames}

theorem finish_perm (h : fs.Alike List.Perm gs) : fs.finish.Perm gs.finish := by
  obtain ⟨us, vs, huses, hfs, hgs⟩ := h.finish perm_reordering
  rw [hfs, hgs]
  refine (List.mergeSort_perm _ _).trans (.trans ?_ (List.mergeSort_perm _ _).symm)
  exact (List.reverse_perm us).trans (huses.trans (List.reverse_perm vs).symm)

theorem finish_eq (h : fs.Alike SamePlaces gs) : fs.finish = gs.finish := by
  obtain ⟨us, vs, huses, hfs, hgs⟩ := h.finish SamePlaces.reordering
  rw [hfs, hgs, SamePlaces.byPlace_eq huses.reverse]

end Frames.Alike

/-! ## The rest of the walk -/

/-- A step of a walk: over a piece, into a scope or out of it. -/
inductive Step where
  | visit (n : Node)
  | opened (isFunction : Bool)
  | closed

/-- Takes a step. -/
def Step.run : Step → Frames → Frames
  | visit n, fs => n.visit fs
  | opened isFunction, fs => fs.opened isFunction
  | closed, fs => fs.closed

/-- Takes steps in a row. -/
def Step.runAll (steps : List Step) (fs : Frames) : Frames :=
  steps.foldl (fun fs step => step.run fs) fs

section
variable {R : List Use → List Use → Prop} {fs gs : Frames}

theorem Frames.Alike.run (hR : Reordering R) (h : fs.Alike R gs) (step : Step) :
    (step.run fs).Alike R (step.run gs) := by
  cases step with
  | visit n =>
    cases h with
    | nil => exact .refl hR _
    | cons hf h =>
      rw [Step.run, Step.run, n.visit_acts, n.visit_acts]
      exact Frames.Alike.apply hR (.cons hf h) (hR.refl _) fun _ => Iff.rfl
  | opened isFunction => exact h.opened hR isFunction
  | closed => exact h.closed hR

theorem Frames.Alike.runAll (hR : Reordering R) (h : fs.Alike R gs) (steps : List Step) :
    (Step.runAll steps fs).Alike R (Step.runAll steps gs) := by
  induction steps generalizing fs gs with
  | nil => exact h
  | cons step steps ih => exact ih (h.run hR step)

end

/-- A piece may be walked over in front of others of its scope or behind them. -/
theorem Node.visit_visitAll_alike {R : List Use → List Use → Prop} (hR : Reordering R) (n : Node)
    (ns : List Node) (f : Frame) (fs : Frames)
    (h : R ((effects ns).uses ++ n.effect.uses) (n.effect.uses ++ (effects ns).uses)) :
    Frames.Alike R (visitAll ns (n.visit (f :: fs))) (n.visit (visitAll ns (f :: fs))) := by
  have hbefore := n.visit_acts.andThen (visitAll_acts ns) f fs
  have hafter := (visitAll_acts ns).andThen n.visit_acts f fs
  dsimp only at hbefore hafter
  rw [hbefore, hafter]
  refine Frames.Alike.apply hR (.refl hR _) h fun x => ?_
  rw [Effect.andThen, Effect.andThen, List.mem_append, List.mem_append, or_comm]

variable (n : Node) (ns : List Node) (f : Frame) (fs : Frames) (steps : List Step)

theorem Node.visit_grown : Frames.Grown n.effect.uses n.effect.names (f :: fs) (n.visit (f :: fs)) := by
  rw [n.visit_acts]
  exact n.effect.apply_grown _

/-- The same references are left in the end, whichever of the pieces came first. -/
theorem Node.finish_visit_perm :
    (Step.runAll steps (visitAll ns (n.visit (f :: fs)))).finish.Perm
      (Step.runAll steps (n.visit (visitAll ns (f :: fs)))).finish := by
  have halike := n.visit_visitAll_alike perm_reordering ns f fs List.perm_append_comm
  exact (halike.runAll perm_reordering steps).finish_perm

/-- They are left in the same order, if the pieces use names at different places. -/
theorem Node.finish_visit_eq
    (h : ∀ u ∈ n.effect.uses, ∀ v ∈ (effects ns).uses, u.id.span.start ≠ v.id.span.start) :
    (Step.runAll steps (visitAll ns (n.visit (f :: fs)))).finish =
      (Step.runAll steps (n.visit (visitAll ns (f :: fs)))).finish := by
  have happend := (SamePlaces.append_comm h).symm
  have halike := n.visit_visitAll_alike SamePlaces.reordering ns f fs happend
  exact (halike.runAll SamePlaces.reordering steps).finish_eq

/-- The walk is compositional.  A piece of syntax makes the frames grow by uses and names that are its
own, whatever they held; the names of a declaration are among them, each with the frame that it goes to;
and the piece, be it a declaration or not, may come in front of others of its scope or behind them,
whatever the rest of the walk is. -/
theorem Node.visit_compositional (n : Node) :
    (∀ f fs, Frames.Grown n.effect.uses n.effect.names (f :: fs) (n.visit (f :: fs))) ∧
    (∀ isVar name, n.Introduces isVar name → (isVar, name) ∈ n.effect.names) ∧
    ∀ ns f fs steps,
      let first := (Step.runAll steps (visitAll ns (n.visit (f :: fs)))).finish
      let last := (Step.runAll steps (n.visit (visitAll ns (f :: fs)))).finish
      first.Perm last ∧
        ((∀ u ∈ n.effect.uses, ∀ v ∈ (effects ns).uses, u.id.span.start ≠ v.id.span.start) →
          first = last) :=
  ⟨n.visit_grown, fun _ _ h => h.mem_names, fun ns f fs steps =>
    ⟨n.finish_visit_perm ns f fs steps, n.finish_visit_eq ns f fs steps⟩⟩

/-- A variable that is declared in a block behind its use is no reference. -/
example :
    let use := Expr.ident ⟨"x", ⟨0, 1⟩⟩
    let block := Stmt.block ⟨2, 11⟩ [.varDecl ⟨4, 9⟩ true [.mk (.ident ⟨"x", ⟨8, 9⟩⟩ ⟨8, 9⟩) []]]
    (block.visit (use.visit (Frames.root []))).finish = [] := by
  decide +kernel

end TemplateSyntax.Script
