import TemplateSyntax.Script.Scope

/-! # The identifiers of a script

What holds of each identifier that a syntax tree uses or binds holds of each use of a name that leaves
the tree, and of each name that a pattern binds.  The names of functions, classes and labels are left
out: they are neither. -/

namespace TemplateSyntax.Script

section

variable (P : Ident → Prop)

mutual

/-- `P` holds of the identifiers in an expression. -/
def Expr.All : Expr → Prop
  | .ident id => P id
  | .number _ | .literal _ => True
  | .array _ elements => argsAll elements
  | .object _ properties => propertiesAll properties
  | .fn _ _ f => f.All
  | .cls _ _ c => c.All
  | .arrow _ params body => patsAll params ∧ body.All
  | .assign _ _ target value => target.All ∧ value.All
  | .update _ argument => argument.All
  | .unary _ _ argument => argument.All
  | .binary _ _ left right => left.All ∧ right.All
  | .paren _ inner => inner.All
  | .call _ callee arguments types => callee.All ∧ argsAll arguments ∧ exprsAll types
  | .compound _ _ parts => exprsAll parts

/-- `P` holds of the identifiers in expressions. -/
def exprsAll : List Expr → Prop
  | [] => True
  | e :: es => e.All ∧ exprsAll es

/-- `P` holds of the identifiers in an argument. -/
def Arg.All : Arg → Prop
  | .item e => e.All
  | .spread _ e => e.All
  | .hole => True

/-- `P` holds of the identifiers in arguments. -/
def argsAll : List Arg → Prop
  | [] => True
  | a :: as => a.All ∧ argsAll as

/-- `P` holds of the identifiers in a key. -/
def Key.All : Key → Prop
  | .fixed _ => True
  | .computed e => e.All

/-- `P` holds of the identifiers in a property of an object. -/
def Property.All : Property → Prop
  | .shorthand id => P id
  | .shorthandDefault id value => P id ∧ value.All
  | .keyValue key value => key.All ∧ value.All
  | .spread _ e => e.All
  | .method _ key f => key.All ∧ f.All
  | .getter _ key types body => key.All ∧ exprsAll types ∧ stmtsAll body
  | .setter _ key param body => key.All ∧ param.All ∧ stmtsAll body

/-- `P` holds of the identifiers in properties of an object. -/
def propertiesAll : List Property → Prop
  | [] => True
  | p :: ps => p.All ∧ propertiesAll ps

/-- `P` holds of the identifiers in a pattern. -/
def Pat.All : Pat → Prop
  | .ident id _ => P id
  | .array _ elements => patsAll elements
  | .rest _ argument => argument.All
  | .object _ properties => patPropertiesAll properties
  | .withDefault _ left right => left.All ∧ right.All
  | .expr e => e.All
  | .hole => True

/-- `P` holds of the identifiers in patterns. -/
def patsAll : List Pat → Prop
  | [] => True
  | p :: ps => p.All ∧ patsAll ps

/-- `P` holds of the identifiers in a property of a pattern. -/
def PatProperty.All : PatProperty → Prop
  | .keyValue key value => key.All ∧ value.All
  | .shorthand id => P id
  | .shorthandDefault id value => P id ∧ value.All
  | .rest argument => argument.All

/-- `P` holds of the identifiers in properties of a pattern. -/
def patPropertiesAll : List PatProperty → Prop
  | [] => True
  | p :: ps => p.All ∧ patPropertiesAll ps

/-- `P` holds of the identifiers in a function. -/
def Func.All : Func → Prop
  | .mk params body => patsAll params ∧ stmtsAll body

/-- `P` holds of the identifiers in a class. -/
def Class.All : Class → Prop
  | .mk heritage members => exprsAll heritage ∧ membersAll members

/-- `P` holds of the identifiers in a member of a class. -/
def Member.All : Member → Prop
  | .constructor params body => patsAll params ∧ stmtsAll body
  | .method key f => key.All ∧ f.All
  | .field key parts => key.All ∧ exprsAll parts
  | .staticBlock body => stmtsAll body
  | .types parts => exprsAll parts

/-- `P` holds of the identifiers in members of a class. -/
def membersAll : List Member → Prop
  | [] => True
  | m :: ms => m.All ∧ membersAll ms

/-- `P` holds of the identifiers in a declared pattern and its value. -/
def Declarator.All : Declarator → Prop
  | .mk name init => name.All ∧ exprsAll init

/-- `P` holds of the identifiers in declared patterns and their values. -/
def declaratorsAll : List Declarator → Prop
  | [] => True
  | d :: ds => d.All ∧ declaratorsAll ds

/-- `P` holds of the identifiers in what a loop assigns to. -/
def ForHead.All : ForHead → Prop
  | .declaration _ declarators => declaratorsAll declarators
  | .target p => p.All

/-- `P` holds of the identifiers in a statement. -/
def Stmt.All : Stmt → Prop
  | .expr _ e => e.All
  | .plain _ _ exprs body => exprsAll exprs ∧ stmtsAll body
  | .block _ body => stmtsAll body
  | .tryCatch _ body param handler finalizer =>
    stmtsAll body ∧ patsAll param ∧ stmtsAll handler ∧ stmtsAll finalizer
  | .forLoop _ init exprs body => stmtsAll init ∧ exprsAll exprs ∧ body.All
  | .forEach _ _ head right body => head.All ∧ right.All ∧ body.All
  | .varDecl _ _ declarators => declaratorsAll declarators
  | .fnDecl _ _ f => f.All
  | .classDecl _ _ c => c.All

/-- `P` holds of the identifiers in statements. -/
def stmtsAll : List Stmt → Prop
  | [] => True
  | s :: ss => s.All ∧ stmtsAll ss

end

end

variable {P : Ident → Prop}

/-! ## Lists -/

theorem exprsAll_iff {xs : List Expr} : exprsAll P xs ↔ ∀ x ∈ xs, x.All P := by
  induction xs with
  | nil => simp [exprsAll]
  | cons x xs ih => rw [exprsAll, ih, List.forall_mem_cons]

theorem argsAll_iff {xs : List Arg} : argsAll P xs ↔ ∀ x ∈ xs, x.All P := by
  induction xs with
  | nil => simp [argsAll]
  | cons x xs ih => rw [argsAll, ih, List.forall_mem_cons]

theorem propertiesAll_iff {xs : List Property} : propertiesAll P xs ↔ ∀ x ∈ xs, x.All P := by
  induction xs with
  | nil => simp [propertiesAll]
  | cons x xs ih => rw [propertiesAll, ih, List.forall_mem_cons]

theorem patsAll_iff {xs : List Pat} : patsAll P xs ↔ ∀ x ∈ xs, x.All P := by
  induction xs with
  | nil => simp [patsAll]
  | cons x xs ih => rw [patsAll, ih, List.forall_mem_cons]

theorem patPropertiesAll_iff {xs : List PatProperty} : patPropertiesAll P xs ↔ ∀ x ∈ xs, x.All P := by
  induction xs with
  | nil => simp [patPropertiesAll]
  | cons x xs ih => rw [patPropertiesAll, ih, List.forall_mem_cons]

theorem membersAll_iff {xs : List Member} : membersAll P xs ↔ ∀ x ∈ xs, x.All P := by
  induction xs with
  | nil => simp [membersAll]
  | cons x xs ih => rw [membersAll, ih, List.forall_mem_cons]

theorem declaratorsAll_iff {xs : List Declarator} : declaratorsAll P xs ↔ ∀ x ∈ xs, x.All P := by
  induction xs with
  | nil => simp [declaratorsAll]
  | cons x xs ih => rw [declaratorsAll, ih, List.forall_mem_cons]

theorem stmtsAll_iff {xs : List Stmt} : stmtsAll P xs ↔ ∀ x ∈ xs, x.All P := by
  induction xs with
  | nil => simp [stmtsAll]
  | cons x xs ih => rw [stmtsAll, ih, List.forall_mem_cons]

/-! ## Uses of names -/

/-- `P` holds of what is used in the frames. -/
def Frames.UsesIn (P : Ident → Prop) (fs : Frames) : Prop :=
  ∀ f ∈ fs, ∀ u ∈ f.pending, P u.id

namespace Frames.UsesIn

variable {P : Ident → Prop} {fs : Frames}

theorem opened (h : UsesIn P fs) (isFunction : Bool) : UsesIn P (fs.opened isFunction) := by
  intro f hf
  rcases List.mem_cons.1 hf with rfl | hf
  · simp
  · exact h f hf

theorem closed (h : UsesIn P fs) : UsesIn P fs.closed := by
  unfold Frames.closed
  split
  · next f g fs =>
    intro x hx
    rcases List.mem_cons.1 hx with rfl | hx
    · intro u hu
      rcases List.mem_append.1 hu with hu | hu
      · exact h f (by simp) u (List.mem_filter.1 hu).1
      · exact h g (by simp) u hu
    · exact h x (by simp [hx])
  · exact h

theorem use (h : UsesIn P fs) {id : Ident} (hid : P id) (mode : ReferenceMode) :
    UsesIn P (fs.use id mode) := by
  unfold Frames.use
  split
  · next f fs =>
    intro x hx
    rcases List.mem_cons.1 hx with rfl | hx
    · intro u hu
      rcases List.mem_cons.1 hu with rfl | hu
      · exact hid
      · exact h f (by simp) u hu
    · exact h x (by simp [hx])
  · exact h

theorem declareHere (h : UsesIn P fs) (name : String) : UsesIn P (fs.declareHere name) := by
  unfold Frames.declareHere
  split
  · next f fs =>
    intro x hx
    rcases List.mem_cons.1 hx with rfl | hx
    · exact h f (by simp)
    · exact h x (by simp [hx])
  · exact h

theorem declareVar (h : UsesIn P fs) (name : String) : UsesIn P (fs.declareVar name) := by
  induction fs with
  | nil => exact h
  | cons f fs ih =>
    have hf : ∀ u ∈ f.pending, P u.id := h f (by simp)
    have hfs : UsesIn P fs := fun x hx => h x (by simp [hx])
    rw [Frames.declareVar]
    split
    · intro x hx
      rcases List.mem_cons.1 hx with rfl | hx
      · exact hf
      · exact hfs x hx
    · intro x hx
      rcases List.mem_cons.1 hx with rfl | hx
      · exact hf
      · exact ih hfs x hx

theorem declare (h : UsesIn P fs) (isVar : Bool) (name : String) :
    UsesIn P (fs.declare isVar name) := by
  unfold Frames.declare
  split
  · exact h.declareVar name
  · exact h.declareHere name

theorem root (P : Ident → Prop) (names : List String) : UsesIn P (Frames.root names) := by
  intro f hf
  rw [List.mem_singleton.1 hf]
  simp

/-- What leaves the outermost scope was put down in one of them. -/
theorem finish (h : UsesIn P fs) : ∀ u ∈ fs.finish, P u.id := by
  have hfold : ∀ (gs : Frames) (uses : List Use), UsesIn P gs → (∀ u ∈ uses, P u.id) →
      ∀ u ∈ gs.foldl (fun uses (g : Frame) =>
        unresolved { g with pending := uses ++ g.pending }) uses, P u.id := by
    intro gs
    induction gs with
    | nil => exact fun uses _ huses => huses
    | cons g gs ih =>
      intro uses hgs huses
      refine ih _ (fun x hx => hgs x (by simp [hx])) fun u hu => ?_
      rcases List.mem_append.1 (List.mem_filter.1 hu).1 with hu | hu
      · exact huses u hu
      · exact hgs g (by simp) u hu
  intro u hu
  unfold Frames.finish at hu
  dsimp only at hu
  rw [List.mem_mergeSort, List.mem_reverse] at hu
  split at hu
  · next f fs =>
    refine hfold fs _ (fun x hx => h x (by simp [hx])) (fun u hu => ?_) u hu
    exact h f (by simp) u (List.mem_filter.1 hu).1
  · simp at hu

end Frames.UsesIn

open Frames (UsesIn)

variable {P : Ident → Prop}

mutual

theorem Expr.visit_usesIn {fs : Frames} (h : UsesIn P fs) :
    ∀ e : Expr, e.All P → UsesIn P (e.visit fs)
  | .ident id, he => by
    rw [Expr.visit]
    exact h.use (by rwa [Expr.All] at he) _
  | .number _, _ | .literal _, _ => by rwa [Expr.visit]
  | .array _ elements, he => by
    rw [Expr.All] at he
    rw [Expr.visit]
    exact visitArgs_usesIn h elements he
  | .object _ properties, he => by
    rw [Expr.All] at he
    rw [Expr.visit]
    exact visitProperties_usesIn h properties he
  | .fn _ name f, he => by
    rw [Expr.All] at he
    cases name with
    | none =>
      rw [Expr.visit]
      exact (Func.visit_usesIn (h.opened false) f he).closed
    | some id =>
      rw [Expr.visit]
      exact (Func.visit_usesIn ((h.opened false).declareHere id.name) f he).closed
  | .cls _ name c, he => by
    rw [Expr.All] at he
    cases name with
    | none =>
      rw [Expr.visit]
      exact (Class.visit_usesIn (h.opened false) c he).closed
    | some id =>
      rw [Expr.visit]
      exact (Class.visit_usesIn ((h.opened false).declareHere id.name) c he).closed
  | .arrow _ params body, he => by
    rw [Expr.All] at he
    rw [Expr.visit]
    exact (Stmt.visit_usesIn (declarePats_usesIn (h.opened true) false params he.1) body
      he.2).closed
  | .assign _ op target value, he => by
    rw [Expr.All] at he
    rw [Expr.visit.eq_def]
    refine Expr.visit_usesIn ?_ value he.2
    split
    · next id _ => exact h.use (by simpa only [Pat.All] using he.1) _
    · exact Pat.write_usesIn h target he.1
  | .update _ argument, he => by
    rw [Expr.All] at he
    rw [Expr.visit.eq_def]
    dsimp only
    split
    · next id => exact h.use (by rwa [Expr.All] at he) _
    · exact Expr.visit_usesIn h argument he
  | .unary _ _ argument, he => by
    rw [Expr.All] at he
    rw [Expr.visit]
    exact Expr.visit_usesIn h argument he
  | .binary _ _ left right, he => by
    rw [Expr.All] at he
    rw [Expr.visit]
    exact Expr.visit_usesIn (Expr.visit_usesIn h left he.1) right he.2
  | .paren _ inner, he => by
    rw [Expr.All] at he
    rw [Expr.visit]
    exact Expr.visit_usesIn h inner he
  | .call _ callee arguments types, he => by
    rw [Expr.All] at he
    rw [Expr.visit]
    exact visitExprs_usesIn (visitArgs_usesIn (Expr.visit_usesIn h callee he.1) arguments
      he.2.1) types he.2.2
  | .compound _ _ parts, he => by
    rw [Expr.All] at he
    rw [Expr.visit]
    exact visitExprs_usesIn h parts he

theorem visitExprs_usesIn {fs : Frames} (h : UsesIn P fs) :
    ∀ es : List Expr, exprsAll P es → UsesIn P (visitExprs es fs)
  | [], _ => by rwa [visitExprs]
  | e :: es, he => by
    rw [exprsAll] at he
    rw [visitExprs]
    exact visitExprs_usesIn (Expr.visit_usesIn h e he.1) es he.2

theorem Arg.visit_usesIn {fs : Frames} (h : UsesIn P fs) :
    ∀ a : Arg, a.All P → UsesIn P (a.visit fs)
  | .item e, ha => by
    rw [Arg.visit]
    exact Expr.visit_usesIn h e ha
  | .spread _ e, ha => by
    rw [Arg.All] at ha
    rw [Arg.visit]
    exact Expr.visit_usesIn h e ha
  | .hole, _ => by rwa [Arg.visit]

theorem visitArgs_usesIn {fs : Frames} (h : UsesIn P fs) :
    ∀ as : List Arg, argsAll P as → UsesIn P (visitArgs as fs)
  | [], _ => by rwa [visitArgs]
  | a :: as, ha => by
    rw [argsAll] at ha
    rw [visitArgs]
    exact visitArgs_usesIn (Arg.visit_usesIn h a ha.1) as ha.2

theorem Key.visit_usesIn {fs : Frames} (h : UsesIn P fs) :
    ∀ k : Key, k.All P → UsesIn P (k.visit fs)
  | .fixed _, _ => by rwa [Key.visit]
  | .computed e, hk => by
    rw [Key.visit]
    exact Expr.visit_usesIn h e hk

theorem Property.visit_usesIn {fs : Frames} (h : UsesIn P fs) :
    ∀ p : Property, p.All P → UsesIn P (p.visit fs)
  | .shorthand id, hp => by
    rw [Property.visit]
    exact h.use (by rwa [Property.All] at hp) _
  | .shorthandDefault _ value, hp => by
    rw [Property.All] at hp
    rw [Property.visit]
    exact Expr.visit_usesIn h value hp.2
  | .keyValue key value, hp => by
    rw [Property.All] at hp
    rw [Property.visit]
    exact Expr.visit_usesIn (Key.visit_usesIn h key hp.1) value hp.2
  | .spread _ e, hp => by
    rw [Property.All] at hp
    rw [Property.visit]
    exact Expr.visit_usesIn h e hp
  | .method _ key f, hp => by
    rw [Property.All] at hp
    rw [Property.visit]
    exact Func.visit_usesIn (Key.visit_usesIn h key hp.1) f hp.2
  | .getter _ key types body, hp => by
    rw [Property.All] at hp
    rw [Property.visit]
    exact (visitStmts_usesIn ((visitExprs_usesIn (Key.visit_usesIn h key hp.1) types
      hp.2.1).opened false) body hp.2.2).closed
  | .setter _ key param body, hp => by
    rw [Property.All] at hp
    rw [Property.visit]
    exact (visitStmts_usesIn ((Pat.declare_usesIn ((Key.visit_usesIn h key hp.1).opened true)
      false param hp.2.1).opened false) body hp.2.2).closed.closed

theorem visitProperties_usesIn {fs : Frames} (h : UsesIn P fs) :
    ∀ ps : List Property, propertiesAll P ps → UsesIn P (visitProperties ps fs)
  | [], _ => by rwa [visitProperties]
  | p :: ps, hp => by
    rw [propertiesAll] at hp
    rw [visitProperties]
    exact visitProperties_usesIn (Property.visit_usesIn h p hp.1) ps hp.2

theorem Pat.declare_usesIn {fs : Frames} (h : UsesIn P fs) (isVar : Bool) :
    ∀ p : Pat, p.All P → UsesIn P (p.declare isVar fs)
  | .ident id _, _ => by
    rw [Pat.declare]
    exact h.declare isVar id.name
  | .array _ elements, hp => by
    rw [Pat.All] at hp
    rw [Pat.declare]
    exact declarePats_usesIn h isVar elements hp
  | .rest _ argument, hp => by
    rw [Pat.All] at hp
    rw [Pat.declare]
    exact Pat.declare_usesIn h isVar argument hp
  | .object _ properties, hp => by
    rw [Pat.All] at hp
    rw [Pat.declare]
    exact declarePatProperties_usesIn h isVar properties hp
  | .withDefault _ left right, hp => by
    rw [Pat.All] at hp
    rw [Pat.declare]
    exact Expr.visit_usesIn (Pat.declare_usesIn h isVar left hp.1) right hp.2
  | .expr e, hp => by
    rw [Pat.declare]
    exact Expr.visit_usesIn h e hp
  | .hole, _ => by rwa [Pat.declare]

theorem declarePats_usesIn {fs : Frames} (h : UsesIn P fs) (isVar : Bool) :
    ∀ ps : List Pat, patsAll P ps → UsesIn P (declarePats isVar ps fs)
  | [], _ => by rwa [declarePats]
  | p :: ps, hp => by
    rw [patsAll] at hp
    rw [declarePats]
    exact declarePats_usesIn (Pat.declare_usesIn h isVar p hp.1) isVar ps hp.2

theorem PatProperty.declare_usesIn {fs : Frames} (h : UsesIn P fs) (isVar : Bool) :
    ∀ p : PatProperty, p.All P → UsesIn P (p.declare isVar fs)
  | .keyValue key value, hp => by
    rw [PatProperty.All] at hp
    rw [PatProperty.declare]
    exact Pat.declare_usesIn (Key.visit_usesIn h key hp.1) isVar value hp.2
  | .shorthand id, _ => by
    rw [PatProperty.declare]
    exact h.declare isVar id.name
  | .shorthandDefault id value, hp => by
    rw [PatProperty.All] at hp
    rw [PatProperty.declare]
    exact Expr.visit_usesIn (h.declare isVar id.name) value hp.2
  | .rest argument, hp => by
    rw [PatProperty.declare]
    exact Pat.declare_usesIn h isVar argument hp

theorem declarePatProperties_usesIn {fs : Frames} (h : UsesIn P fs) (isVar : Bool) :
    ∀ ps : List PatProperty, patPropertiesAll P ps →
      UsesIn P (declarePatProperties isVar ps fs)
  | [], _ => by rwa [declarePatProperties]
  | p :: ps, hp => by
    rw [patPropertiesAll] at hp
    rw [declarePatProperties]
    exact declarePatProperties_usesIn (PatProperty.declare_usesIn h isVar p hp.1) isVar ps hp.2

theorem Pat.write_usesIn {fs : Frames} (h : UsesIn P fs) :
    ∀ p : Pat, p.All P → UsesIn P (p.write fs)
  | .ident id _, hp => by
    rw [Pat.write]
    exact h.use (by rwa [Pat.All] at hp) _
  | .array _ elements, hp => by
    rw [Pat.All] at hp
    rw [Pat.write]
    exact writePats_usesIn h elements hp
  | .rest _ argument, hp => by
    rw [Pat.All] at hp
    rw [Pat.write]
    exact Pat.write_usesIn h argument hp
  | .object _ properties, hp => by
    rw [Pat.All] at hp
    rw [Pat.write]
    exact writePatProperties_usesIn h properties hp
  | .withDefault _ left right, hp => by
    rw [Pat.All] at hp
    rw [Pat.write]
    exact Expr.visit_usesIn (Pat.write_usesIn h left hp.1) right hp.2
  | .expr e, hp => by
    rw [Pat.All] at hp
    rw [Pat.write.eq_def]
    cases e with
    | ident id => exact h.use (by rwa [Expr.All] at hp) _
    | _ => exact Expr.visit_usesIn h _ hp
  | .hole, _ => by rwa [Pat.write]

theorem writePats_usesIn {fs : Frames} (h : UsesIn P fs) :
    ∀ ps : List Pat, patsAll P ps → UsesIn P (writePats ps fs)
  | [], _ => by rwa [writePats]
  | p :: ps, hp => by
    rw [patsAll] at hp
    rw [writePats]
    exact writePats_usesIn (Pat.write_usesIn h p hp.1) ps hp.2

theorem PatProperty.write_usesIn {fs : Frames} (h : UsesIn P fs) :
    ∀ p : PatProperty, p.All P → UsesIn P (p.write fs)
  | .keyValue key value, hp => by
    rw [PatProperty.All] at hp
    rw [PatProperty.write]
    exact Pat.write_usesIn (Key.visit_usesIn h key hp.1) value hp.2
  | .shorthand id, hp => by
    rw [PatProperty.write]
    exact h.use (by rwa [PatProperty.All] at hp) _
  | .shorthandDefault id value, hp => by
    rw [PatProperty.All] at hp
    rw [PatProperty.write]
    exact Expr.visit_usesIn (h.use hp.1 _) value hp.2
  | .rest argument, hp => by
    rw [PatProperty.write]
    exact Pat.write_usesIn h argument hp

theorem writePatProperties_usesIn {fs : Frames} (h : UsesIn P fs) :
    ∀ ps : List PatProperty, patPropertiesAll P ps →
      UsesIn P (writePatProperties ps fs)
  | [], _ => by rwa [writePatProperties]
  | p :: ps, hp => by
    rw [patPropertiesAll] at hp
    rw [writePatProperties]
    exact writePatProperties_usesIn (PatProperty.write_usesIn h p hp.1) ps hp.2

theorem Func.visit_usesIn {fs : Frames} (h : UsesIn P fs) :
    ∀ f : Func, f.All P → UsesIn P (f.visit fs)
  | .mk params body, hf => by
    rw [Func.All] at hf
    rw [Func.visit]
    exact (visitStmts_usesIn ((declarePats_usesIn ((h.opened true).declareHere "arguments") false
      params hf.1).opened false) body hf.2).closed.closed

theorem Class.visit_usesIn {fs : Frames} (h : UsesIn P fs) :
    ∀ c : Class, c.All P → UsesIn P (c.visit fs)
  | .mk heritage members, hc => by
    rw [Class.All] at hc
    rw [Class.visit]
    exact visitMembers_usesIn (visitExprs_usesIn h heritage hc.1) members hc.2

theorem Member.visit_usesIn {fs : Frames} (h : UsesIn P fs) :
    ∀ m : Member, m.All P → UsesIn P (m.visit fs)
  | .constructor params body, hm => by
    rw [Member.All] at hm
    rw [Member.visit]
    exact (visitStmts_usesIn ((declarePats_usesIn (h.opened true) false params hm.1).opened false)
      body hm.2).closed.closed
  | .method key f, hm => by
    rw [Member.All] at hm
    rw [Member.visit]
    exact Func.visit_usesIn (Key.visit_usesIn h key hm.1) f hm.2
  | .field key parts, hm => by
    rw [Member.All] at hm
    rw [Member.visit]
    exact visitExprs_usesIn (Key.visit_usesIn h key hm.1) parts hm.2
  | .staticBlock body, hm => by
    rw [Member.visit]
    exact (visitStmts_usesIn (h.opened false) body hm).closed
  | .types parts, hm => by
    rw [Member.visit]
    exact visitExprs_usesIn h parts hm

theorem visitMembers_usesIn {fs : Frames} (h : UsesIn P fs) :
    ∀ ms : List Member, membersAll P ms → UsesIn P (visitMembers ms fs)
  | [], _ => by rwa [visitMembers]
  | m :: ms, hm => by
    rw [membersAll] at hm
    rw [visitMembers]
    exact visitMembers_usesIn (Member.visit_usesIn h m hm.1) ms hm.2

theorem Declarator.visit_usesIn {fs : Frames} (h : UsesIn P fs) (isVar : Bool) :
    ∀ d : Declarator, d.All P → UsesIn P (d.visit isVar fs)
  | .mk name init, hd => by
    rw [Declarator.All] at hd
    rw [Declarator.visit]
    exact visitExprs_usesIn (Pat.declare_usesIn h isVar name hd.1) init hd.2

theorem visitDeclarators_usesIn {fs : Frames} (h : UsesIn P fs) (isVar : Bool) :
    ∀ ds : List Declarator, declaratorsAll P ds →
      UsesIn P (visitDeclarators isVar ds fs)
  | [], _ => by rwa [visitDeclarators]
  | d :: ds, hd => by
    rw [declaratorsAll] at hd
    rw [visitDeclarators]
    exact visitDeclarators_usesIn (Declarator.visit_usesIn h isVar d hd.1) isVar ds hd.2

theorem ForHead.visit_usesIn {fs : Frames} (h : UsesIn P fs) :
    ∀ x : ForHead, x.All P → UsesIn P (x.visit fs)
  | .declaration isVar declarators, hx => by
    rw [ForHead.visit]
    exact visitDeclarators_usesIn h isVar declarators hx
  | .target p, hx => by
    rw [ForHead.visit]
    exact Pat.write_usesIn h p hx

theorem Stmt.visit_usesIn {fs : Frames} (h : UsesIn P fs) :
    ∀ x : Stmt, x.All P → UsesIn P (x.visit fs)
  | .expr _ e, hx => by
    rw [Stmt.All] at hx
    rw [Stmt.visit]
    exact Expr.visit_usesIn h e hx
  | .plain _ _ exprs body, hx => by
    rw [Stmt.All] at hx
    rw [Stmt.visit]
    exact visitStmts_usesIn (visitExprs_usesIn h exprs hx.1) body hx.2
  | .block _ body, hx => by
    rw [Stmt.All] at hx
    rw [Stmt.visit]
    exact (visitStmts_usesIn (h.opened false) body hx).closed
  | .tryCatch _ body param handler finalizer, hx => by
    rw [Stmt.All] at hx
    obtain ⟨hbody, hparam, hhandler, hfinalizer⟩ := hx
    rw [Stmt.visit]
    have htried := (visitStmts_usesIn (h.opened false) body hbody).closed
    have hcaught := declarePats_usesIn (htried.opened false) false param hparam
    have hhandled := (visitStmts_usesIn (hcaught.opened false) handler hhandler).closed.closed
    exact (visitStmts_usesIn (hhandled.opened false) finalizer hfinalizer).closed
  | .forLoop _ init exprs body, hx => by
    rw [Stmt.All] at hx
    rw [Stmt.visit]
    exact (Stmt.visit_usesIn (visitExprs_usesIn (visitStmts_usesIn (h.opened false) init
      hx.1) exprs hx.2.1) body hx.2.2).closed
  | .forEach _ _ head right body, hx => by
    rw [Stmt.All] at hx
    rw [Stmt.visit]
    exact (Stmt.visit_usesIn (Expr.visit_usesIn (ForHead.visit_usesIn (h.opened false) head
      hx.1) right hx.2.1) body hx.2.2).closed
  | .varDecl _ isVar declarators, hx => by
    rw [Stmt.All] at hx
    rw [Stmt.visit]
    exact visitDeclarators_usesIn h isVar declarators hx
  | .fnDecl _ name f, hx => by
    rw [Stmt.All] at hx
    rw [Stmt.visit]
    exact Func.visit_usesIn (h.declareHere name.name) f hx
  | .classDecl _ name c, hx => by
    rw [Stmt.All] at hx
    rw [Stmt.visit]
    exact Class.visit_usesIn (h.declareHere name.name) c hx

theorem visitStmts_usesIn {fs : Frames} (h : UsesIn P fs) :
    ∀ xs : List Stmt, stmtsAll P xs → UsesIn P (visitStmts xs fs)
  | [], _ => by rwa [visitStmts]
  | x :: xs, hx => by
    rw [stmtsAll] at hx
    rw [visitStmts]
    exact visitStmts_usesIn (Stmt.visit_usesIn h x hx.1) xs hx.2

end


/-! ## What is taken from a script -/

/-- What holds of the identifiers of an expression holds of its references. -/
theorem Expr.references_all {e : Expr} (h : e.All P) : ∀ u ∈ e.references, P u.id :=
  (Expr.visit_usesIn (.root P []) e h).finish

theorem filteredReferences_all {head : Expr} {arguments : List Arg} (h : head.All P)
    (hargs : argsAll P arguments) : ∀ u ∈ filteredReferences head arguments, P u.id :=
  (visitArgs_usesIn (Expr.visit_usesIn (.root P []) head h) arguments hargs).finish

theorem bodyReferences_all {body : List Stmt} (names : List String) (h : stmtsAll P body) :
    ∀ u ∈ bodyReferences names body, P u.id :=
  (visitStmts_usesIn (.root P names) body h).finish

theorem patReferences_all {pats : List Pat} (h : patsAll P pats) :
    ∀ u ∈ patReferences pats, P u.id :=
  (declarePats_usesIn (.root P []) false pats h).finish

mutual

/-- What holds of the identifiers of a pattern holds of the names that it binds. -/
theorem Pat.bound_all : ∀ p : Pat, p.All P → ∀ id ∈ p.bound, P id
  | .ident _ _, h, _, hid => by
    rw [Pat.bound, List.mem_singleton] at hid
    rw [Pat.All] at h
    rwa [hid]
  | .array _ elements, h, _, hid => by
    rw [Pat.bound] at hid
    rw [Pat.All] at h
    exact boundByPats_all elements h _ hid
  | .rest _ argument, h, _, hid => by
    rw [Pat.bound] at hid
    rw [Pat.All] at h
    exact Pat.bound_all argument h _ hid
  | .object _ properties, h, _, hid => by
    rw [Pat.bound] at hid
    rw [Pat.All] at h
    exact boundByProperties_all properties h _ hid
  | .withDefault _ left _, h, _, hid => by
    rw [Pat.bound] at hid
    rw [Pat.All] at h
    exact Pat.bound_all left h.1 _ hid
  | .expr _, _, _, hid | .hole, _, _, hid => by simp [Pat.bound] at hid

theorem boundByPats_all : ∀ ps : List Pat, patsAll P ps → ∀ id ∈ boundByPats ps, P id
  | [], _, _, hid => by simp [boundByPats] at hid
  | p :: ps, h, _, hid => by
    rw [boundByPats, List.mem_append] at hid
    rw [patsAll] at h
    exact hid.elim (Pat.bound_all p h.1 _) (boundByPats_all ps h.2 _)

theorem PatProperty.bound_all : ∀ p : PatProperty, p.All P → ∀ id ∈ p.bound, P id
  | .keyValue _ value, h, _, hid => by
    rw [PatProperty.bound] at hid
    rw [PatProperty.All] at h
    exact Pat.bound_all value h.2 _ hid
  | .shorthand _, h, _, hid => by
    rw [PatProperty.bound, List.mem_singleton] at hid
    rw [PatProperty.All] at h
    rwa [hid]
  | .shorthandDefault _ _, h, _, hid => by
    rw [PatProperty.bound, List.mem_singleton] at hid
    rw [PatProperty.All] at h
    rw [hid]
    exact h.1
  | .rest argument, h, _, hid => by
    rw [PatProperty.bound] at hid
    rw [PatProperty.All] at h
    exact Pat.bound_all argument h _ hid

theorem boundByProperties_all :
    ∀ ps : List PatProperty, patPropertiesAll P ps → ∀ id ∈ boundByProperties ps, P id
  | [], _, _, hid => by simp [boundByProperties] at hid
  | p :: ps, h, _, hid => by
    rw [boundByProperties, List.mem_append] at hid
    rw [patPropertiesAll] at h
    exact hid.elim (PatProperty.bound_all p h.1 _) (boundByProperties_all ps h.2 _)

end

end TemplateSyntax.Script
