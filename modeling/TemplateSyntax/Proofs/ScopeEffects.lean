import TemplateSyntax.Script.Scope

/-! # What a walk does to the frames

A walk over a piece of syntax opens and closes scopes of its own and leaves the stack of frames as high
as it was.  To the frames that it finds it only adds: uses of names to the innermost one, and names that
are declared, in the innermost one or in that of the function.  What it adds does not depend on what it
finds. -/

namespace TemplateSyntax.Script

/-- What is added to the frames: uses of names, and declared names, each with whether it is a variable of
the function.  What was added last stands first. -/
structure Effect where
  uses : List Use := []
  names : List (Bool × String) := []

namespace Frames

/-- Puts uses down in the innermost scope. -/
def addUses (uses : List Use) : Frames → Frames
  | f :: fs => { f with pending := uses ++ f.pending } :: fs
  | [] => []

/-- Declares names, the last of them first. -/
def addNames (names : List (Bool × String)) (fs : Frames) : Frames :=
  names.foldr (fun n fs => fs.declare n.1 n.2) fs

variable {f : Frame} {fs : Frames} {names : List (Bool × String)} {uses : List Use}

@[simp] theorem addUses_nil (fs : Frames) : fs.addUses [] = fs := by
  cases fs <;> rfl

@[simp] theorem addUses_cons (uses : List Use) (f : Frame) (fs : Frames) :
    addUses uses (f :: fs) = { f with pending := uses ++ f.pending } :: fs := rfl

@[simp] theorem addNames_nil (fs : Frames) : fs.addNames [] = fs := rfl

@[simp] theorem addNames_cons (n : Bool × String) (names : List (Bool × String)) (fs : Frames) :
    fs.addNames (n :: names) = (fs.addNames names).declare n.1 n.2 := rfl

theorem addUses_append (uses uses' : List Use) (fs : Frames) :
    fs.addUses (uses' ++ uses) = (fs.addUses uses).addUses uses' := by
  cases fs with
  | nil => rfl
  | cons f fs => simp

theorem addNames_append (names names' : List (Bool × String)) (fs : Frames) :
    fs.addNames (names' ++ names) = (fs.addNames names).addNames names' := List.foldr_append ..

/-- Uses and names may be added in any order. -/
theorem declare_addUses (isVar : Bool) (name : String) (uses : List Use) (fs : Frames) :
    (fs.addUses uses).declare isVar name = (fs.declare isVar name).addUses uses := by
  cases fs with
  | nil => cases isVar <;> rfl
  | cons f fs =>
    cases isVar with
    | false => rfl
    | true =>
      change declareVar name _ = addUses uses (declareVar name _)
      rw [addUses_cons, declareVar, declareVar]
      dsimp only
      split <;> rfl

theorem addNames_addUses (names : List (Bool × String)) (uses : List Use) (fs : Frames) :
    (fs.addUses uses).addNames names = (fs.addNames names).addUses uses := by
  induction names with
  | nil => rfl
  | cons n names ih => rw [addNames_cons, addNames_cons, ih, declare_addUses]

/-- The scope of a function takes all names. -/
theorem addNames_function (names : List (Bool × String)) (f : Frame) (fs : Frames)
    (hf : f.isFunction = true) :
    addNames names (f :: fs) = { f with declared := names.map Prod.snd ++ f.declared } :: fs := by
  induction names with
  | nil => rfl
  | cons n names ih =>
    obtain ⟨isVar, name⟩ := n
    rw [addNames_cons, ih]
    cases isVar with
    | false => rfl
    | true =>
      change declareVar name _ = _
      rw [declareVar, if_pos hf]
      rfl

/-- Any other scope leaves the variables of the function to those around it. -/
theorem addNames_block (names : List (Bool × String)) (f : Frame) (fs : Frames)
    (hf : f.isFunction = false) :
    addNames names (f :: fs) =
      { f with declared := (names.filter fun n => !n.1).map Prod.snd ++ f.declared } ::
        fs.addNames (names.filter fun n => n.1) := by
  induction names with
  | nil => rfl
  | cons n names ih =>
    obtain ⟨isVar, name⟩ := n
    rw [addNames_cons, ih]
    cases isVar with
    | false => rfl
    | true =>
      change declareVar name _ = _
      rw [declareVar, if_neg (by simp [hf])]
      rfl

end Frames

namespace Effect

open Frames (addUses addNames)

/-- The use of a name. -/
def ofUse (id : Ident) (mode : ReferenceMode) : Effect := ⟨[⟨id, mode⟩], []⟩

/-- The declaration of a name. -/
def ofName (isVar : Bool) (name : String) : Effect := ⟨[], [(isVar, name)]⟩

/-- The declaration of the own name of a function or class, if it has one. -/
def ofOwnName : Option Ident → Effect
  | some id => ofName false id.name
  | none => {}

/-- Adds to the frames. -/
def apply (e : Effect) (fs : Frames) : Frames := (fs.addNames e.names).addUses e.uses

/-- One effect and then another. -/
def andThen (e e' : Effect) : Effect := ⟨e'.uses ++ e.uses, e'.names ++ e.names⟩

/-- The names that a scope keeps to itself. -/
def hidden (e : Effect) (isFunction : Bool) : List String :=
  (if isFunction then e.names else e.names.filter fun n => !n.1).map Prod.snd

/-- What leaves a scope in which there was an effect. -/
def scope (e : Effect) (isFunction : Bool) : Effect where
  uses := e.uses.filter fun u => !(e.hidden isFunction).contains u.id.name
  names := if isFunction then [] else e.names.filter fun n => n.1

@[simp] theorem nothing_andThen (e : Effect) : Effect.andThen {} e = e := by
  simp [andThen]

theorem apply_andThen (e e' : Effect) (fs : Frames) :
    (e.andThen e').apply fs = e'.apply (e.apply fs) := by
  simp only [apply, andThen]
  rw [Frames.addNames_addUses, Frames.addNames_append, Frames.addUses_append]

/-- The innermost scope stays open. -/
theorem apply_cons (e : Effect) (f : Frame) (fs : Frames) : ∃ g gs, e.apply (f :: fs) = g :: gs := by
  unfold apply
  cases hf : f.isFunction with
  | true => exact ⟨_, _, by rw [Frames.addNames_function _ _ _ hf]; rfl⟩
  | false => exact ⟨_, _, by rw [Frames.addNames_block _ _ _ hf]; rfl⟩

theorem closed_apply (e : Effect) (isFunction : Bool) (f : Frame) (fs : Frames) :
    (e.apply (Frames.opened isFunction (f :: fs))).closed = (e.scope isFunction).apply (f :: fs) := by
  unfold apply Frames.opened
  cases isFunction with
  | true =>
    rw [Frames.addNames_function _ _ _ rfl, Frames.addUses_cons]
    simp [Frames.closed, Frames.unresolved, scope, hidden]
  | false =>
    rw [Frames.addNames_block _ _ _ rfl, Frames.addUses_cons]
    obtain ⟨g, gs, hg⟩ := apply_cons ⟨[], e.names.filter fun n => n.1⟩ f fs
    rw [apply, Frames.addUses_nil] at hg
    simp [Frames.closed, Frames.unresolved, scope, hidden, hg]

/-- What is left of an effect on the outermost scope. -/
theorem finish_apply_root (e : Effect) (names : List String) :
    (e.apply (Frames.root names)).finish =
      (e.uses.filter fun u => !(e.names.map Prod.snd ++ names).contains u.id.name).reverse.mergeSort
        fun a b => a.id.span.start ≤ b.id.span.start := by
  unfold apply Frames.root
  rw [Frames.addNames_function _ _ _ rfl, Frames.addUses_cons]
  simp only [Frames.finish, List.foldl_nil, Frames.unresolved, List.append_nil]

end Effect

/-- The walk has this effect, whatever it finds. -/
def Acts (walk : Frames → Frames) (e : Effect) : Prop := ∀ f fs, walk (f :: fs) = e.apply (f :: fs)

namespace Acts

variable {walk walk' : Frames → Frames} {e e' : Effect}

theorem stay : Acts (fun fs => fs) {} := fun _ _ => rfl

theorem use (id : Ident) (mode : ReferenceMode) :
    Acts (fun fs => fs.use id mode) (.ofUse id mode) := fun _ _ => rfl

theorem declare (isVar : Bool) (name : String) :
    Acts (fun fs => fs.declare isVar name) (.ofName isVar name) := fun f fs => by
  rw [Effect.apply, Effect.ofName, Frames.addUses_nil]
  rfl

theorem declareHere (name : String) :
    Acts (fun fs => fs.declareHere name) (.ofName false name) := declare false name

theorem declareOwn (name : Option Ident) :
    Acts (fun fs => match name with
      | some id => fs.declareHere id.name
      | none => fs) (.ofOwnName name) :=
  match name with
  | some id => declareHere id.name
  | none => stay

theorem andThen (h : Acts walk e) (h' : Acts walk' e') :
    Acts (fun fs => walk' (walk fs)) (e.andThen e') := by
  intro f fs
  obtain ⟨g, gs, hg⟩ := e.apply_cons f fs
  show walk' (walk (f :: fs)) = _
  rw [h, e.apply_andThen, hg, h']

theorem scope (h : Acts walk e) (isFunction : Bool) :
    Acts (fun fs => (walk (fs.opened isFunction)).closed) (e.scope isFunction) := by
  intro f fs
  rw [← e.closed_apply]
  exact congrArg Frames.closed (h ..)

theorem of_eq (h : Acts walk e) (hwalk : ∀ fs, walk' fs = walk fs) (heffect : e' = e) :
    Acts walk' e' := fun f fs => by rw [hwalk, h, heffect]

theorem finish_root (h : Acts walk e) (names : List String) :
    (walk (Frames.root names)).finish =
      (e.uses.filter fun u => !(e.names.map Prod.snd ++ names).contains u.id.name).reverse.mergeSort
        fun a b => a.id.span.start ≤ b.id.span.start := by
  rw [← e.finish_apply_root]
  exact congrArg Frames.finish (h ..)

/-- What leaves the outermost scope are the uses of names that are not declared in it. -/
theorem mem_finish_root (h : Acts walk e) {names : List String} {u : Use} :
    u ∈ (walk (Frames.root names)).finish ↔
      u ∈ e.uses ∧ u.id.name ∉ e.names.map Prod.snd ∧ u.id.name ∉ names := by
  rw [h.finish_root, List.mem_mergeSort, List.mem_reverse, List.mem_filter, Bool.not_eq_true',
    List.contains_eq_mem, decide_eq_false_iff_not, List.mem_append, not_or]

end Acts

/-! ## The effect of each piece of syntax -/

mutual

/-- The effect of an expression.  Functions, and classes with a name, are scopes. -/
def Expr.effect : Expr → Effect
  | .ident id => .ofUse id .read
  | .number _ | .literal _ => {}
  | .array _ elements => argsEffect elements
  | .object _ properties => propertiesEffect properties
  | .fn _ name f => ((Effect.ofOwnName name).andThen f.effect).scope false
  | .cls _ name c => ((Effect.ofOwnName name).andThen c.effect).scope false
  | .arrow _ params body => ((patsBindEffect false params).andThen body.effect).scope true
  | .assign _ op target value =>
    Effect.andThen
      (match target with
        | .ident id _ => .ofUse id (if op.isCompound then .readWrite else .write)
        | _ => target.writeEffect)
      value.effect
  | .update _ argument =>
    match argument with
    | .ident id => .ofUse id .readWrite
    | _ => argument.effect
  | .unary _ _ argument => argument.effect
  | .binary _ _ left right => left.effect.andThen right.effect
  | .paren _ inner => inner.effect
  | .call _ callee arguments types =>
    (callee.effect.andThen (argsEffect arguments)).andThen (exprsEffect types)
  | .compound _ _ parts => exprsEffect parts

/-- The effect of expressions in a row. -/
def exprsEffect : List Expr → Effect
  | [] => {}
  | e :: es => e.effect.andThen (exprsEffect es)

/-- The effect of an argument. -/
def Arg.effect : Arg → Effect
  | .item e => e.effect
  | .spread _ e => e.effect
  | .hole => {}

/-- The effect of arguments in a row. -/
def argsEffect : List Arg → Effect
  | [] => {}
  | a :: as => a.effect.andThen (argsEffect as)

/-- The effect of a key. -/
def Key.effect : Key → Effect
  | .fixed _ => {}
  | .computed e => e.effect

/-- The effect of a property of an object.  The body of a getter is a block of the function around. -/
def Property.effect : Property → Effect
  | .shorthand id => .ofUse id .read
  | .shorthandDefault _ value => value.effect
  | .keyValue key value => key.effect.andThen value.effect
  | .spread _ e => e.effect
  | .method _ key f => key.effect.andThen f.effect
  | .getter _ key types body =>
    (key.effect.andThen (exprsEffect types)).andThen ((stmtsEffect body).scope false)
  | .setter _ key param body =>
    key.effect.andThen (((param.bindEffect false).andThen ((stmtsEffect body).scope false)).scope true)

/-- The effect of properties in a row. -/
def propertiesEffect : List Property → Effect
  | [] => {}
  | p :: ps => p.effect.andThen (propertiesEffect ps)

/-- The effect of a pattern that is declared. -/
def Pat.bindEffect (isVar : Bool) : Pat → Effect
  | .ident id _ => .ofName isVar id.name
  | .array _ elements => patsBindEffect isVar elements
  | .rest _ argument => argument.bindEffect isVar
  | .object _ properties => patPropertiesBindEffect isVar properties
  | .withDefault _ left right => (left.bindEffect isVar).andThen right.effect
  | .expr e => e.effect
  | .hole => {}

/-- The effect of patterns that are declared in a row. -/
def patsBindEffect (isVar : Bool) : List Pat → Effect
  | [] => {}
  | p :: ps => (p.bindEffect isVar).andThen (patsBindEffect isVar ps)

/-- The effect of a property of a pattern that is declared. -/
def PatProperty.bindEffect (isVar : Bool) : PatProperty → Effect
  | .keyValue key value => key.effect.andThen (value.bindEffect isVar)
  | .shorthand id => .ofName isVar id.name
  | .shorthandDefault id value => (Effect.ofName isVar id.name).andThen value.effect
  | .rest argument => argument.bindEffect isVar

/-- The effect of properties of a pattern that are declared in a row. -/
def patPropertiesBindEffect (isVar : Bool) : List PatProperty → Effect
  | [] => {}
  | p :: ps => (p.bindEffect isVar).andThen (patPropertiesBindEffect isVar ps)

/-- The effect of a pattern that is assigned to. -/
def Pat.writeEffect : Pat → Effect
  | .ident id _ => .ofUse id .write
  | .array _ elements => patsWriteEffect elements
  | .rest _ argument => argument.writeEffect
  | .object _ properties => patPropertiesWriteEffect properties
  | .withDefault _ left right => left.writeEffect.andThen right.effect
  | .expr e =>
    match e with
    | .ident id => .ofUse id .write
    | _ => e.effect
  | .hole => {}

/-- The effect of patterns that are assigned to in a row. -/
def patsWriteEffect : List Pat → Effect
  | [] => {}
  | p :: ps => p.writeEffect.andThen (patsWriteEffect ps)

/-- The effect of a property of a pattern that is assigned to. -/
def PatProperty.writeEffect : PatProperty → Effect
  | .keyValue key value => key.effect.andThen value.writeEffect
  | .shorthand id => .ofUse id .write
  | .shorthandDefault id value => (Effect.ofUse id .write).andThen value.effect
  | .rest argument => argument.writeEffect

/-- The effect of properties of a pattern that are assigned to in a row. -/
def patPropertiesWriteEffect : List PatProperty → Effect
  | [] => {}
  | p :: ps => p.writeEffect.andThen (patPropertiesWriteEffect ps)

/-- The effect of a function: its parameters are one scope, and its body is a block in that. -/
def Func.effect : Func → Effect
  | .mk params body =>
    (((Effect.ofName false "arguments").andThen (patsBindEffect false params)).andThen
      ((stmtsEffect body).scope false)).scope true

/-- The effect of a class. -/
def Class.effect : Class → Effect
  | .mk heritage members => (exprsEffect heritage).andThen (membersEffect members)

/-- The effect of a member of a class.  A static block is a block of the function around. -/
def Member.effect : Member → Effect
  | .constructor params body =>
    ((patsBindEffect false params).andThen ((stmtsEffect body).scope false)).scope true
  | .method key f => key.effect.andThen f.effect
  | .field key parts => key.effect.andThen (exprsEffect parts)
  | .staticBlock body => (stmtsEffect body).scope false
  | .types parts => exprsEffect parts

/-- The effect of members of a class in a row. -/
def membersEffect : List Member → Effect
  | [] => {}
  | m :: ms => m.effect.andThen (membersEffect ms)

/-- The effect of a declared pattern and its value. -/
def Declarator.effect (isVar : Bool) : Declarator → Effect
  | .mk name init => (name.bindEffect isVar).andThen (exprsEffect init)

/-- The effect of declared patterns in a row. -/
def declaratorsEffect (isVar : Bool) : List Declarator → Effect
  | [] => {}
  | d :: ds => (d.effect isVar).andThen (declaratorsEffect isVar ds)

/-- The effect of what a loop assigns to. -/
def ForHead.effect : ForHead → Effect
  | .declaration isVar declarators => declaratorsEffect isVar declarators
  | .target p => p.writeEffect

/-- The effect of a statement.  Blocks, loops and the parts of a `try` are scopes; other statements,
a `switch` among them, are none. -/
def Stmt.effect : Stmt → Effect
  | .expr _ e => e.effect
  | .plain _ _ exprs body => (exprsEffect exprs).andThen (stmtsEffect body)
  | .block _ body => (stmtsEffect body).scope false
  | .tryCatch _ body param handler finalizer =>
    (((stmtsEffect body).scope false).andThen
      (((patsBindEffect false param).andThen ((stmtsEffect handler).scope false)).scope false)).andThen
      ((stmtsEffect finalizer).scope false)
  | .forLoop _ init exprs body =>
    (((stmtsEffect init).andThen (exprsEffect exprs)).andThen body.effect).scope false
  | .forEach _ _ head right body =>
    ((head.effect.andThen right.effect).andThen body.effect).scope false
  | .varDecl _ isVar declarators => declaratorsEffect isVar declarators
  | .fnDecl _ name f => (Effect.ofName false name.name).andThen f.effect
  | .classDecl _ name c => (Effect.ofName false name.name).andThen c.effect

/-- The effect of statements in a row. -/
def stmtsEffect : List Stmt → Effect
  | [] => {}
  | x :: xs => x.effect.andThen (stmtsEffect xs)

end

mutual

theorem Expr.visit_acts : ∀ e : Expr, Acts e.visit e.effect
  | .ident id => (Acts.use id _).of_eq (fun _ => by rw [Expr.visit]) (by rw [Expr.effect])
  | .number _ | .literal _ => Acts.stay.of_eq (fun _ => by rw [Expr.visit]) (by rw [Expr.effect])
  | .array _ elements =>
    (visitArgs_acts elements).of_eq (fun _ => by rw [Expr.visit]) (by rw [Expr.effect])
  | .object _ properties =>
    (visitProperties_acts properties).of_eq (fun _ => by rw [Expr.visit]) (by rw [Expr.effect])
  | .fn span name f =>
    (((Acts.declareOwn name).andThen f.visit_acts).scope false).of_eq
      (Expr.visit.eq_def (.fn span name f)) (by rw [Expr.effect])
  | .cls span name c =>
    (((Acts.declareOwn name).andThen c.visit_acts).scope false).of_eq
      (Expr.visit.eq_def (.cls span name c)) (by rw [Expr.effect])
  | .arrow _ params body =>
    (((declarePats_acts false params).andThen body.visit_acts).scope true).of_eq
      (fun _ => by rw [Expr.visit]) (by rw [Expr.effect])
  | .assign _ op target value => by
    refine (Acts.andThen ?_ value.visit_acts).of_eq (fun _ => by rw [Expr.visit.eq_def])
      (by rw [Expr.effect.eq_def])
    -- A name that is assigned to is used as the operator tells.
    cases target with
    | ident id _ => exact .use id _
    | _ => exact Pat.write_acts _
  | .update _ argument => by
    refine Acts.of_eq ?_ (fun _ => by rw [Expr.visit.eq_def]) (by rw [Expr.effect.eq_def])
    cases argument with
    | ident id => exact .use id _
    | _ => exact Expr.visit_acts _
  | .unary _ _ argument =>
    argument.visit_acts.of_eq (fun _ => by rw [Expr.visit]) (by rw [Expr.effect])
  | .binary _ _ left right =>
    (left.visit_acts.andThen right.visit_acts).of_eq
      (fun _ => by rw [Expr.visit]) (by rw [Expr.effect])
  | .paren _ inner => inner.visit_acts.of_eq (fun _ => by rw [Expr.visit]) (by rw [Expr.effect])
  | .call _ callee arguments types =>
    ((callee.visit_acts.andThen (visitArgs_acts arguments)).andThen
      (visitExprs_acts types)).of_eq (fun _ => by rw [Expr.visit]) (by rw [Expr.effect])
  | .compound _ _ parts =>
    (visitExprs_acts parts).of_eq (fun _ => by rw [Expr.visit]) (by rw [Expr.effect])

theorem visitExprs_acts : ∀ es : List Expr, Acts (visitExprs es) (exprsEffect es)
  | [] => Acts.stay.of_eq (fun _ => by rw [visitExprs]) (by rw [exprsEffect])
  | e :: es =>
    (e.visit_acts.andThen (visitExprs_acts es)).of_eq
      (fun _ => by rw [visitExprs]) (by rw [exprsEffect])

theorem Arg.visit_acts : ∀ a : Arg, Acts a.visit a.effect
  | .item e => e.visit_acts.of_eq (fun _ => by rw [Arg.visit]) (by rw [Arg.effect])
  | .spread _ e => e.visit_acts.of_eq (fun _ => by rw [Arg.visit]) (by rw [Arg.effect])
  | .hole => Acts.stay.of_eq (fun _ => by rw [Arg.visit]) (by rw [Arg.effect])

theorem visitArgs_acts : ∀ as : List Arg, Acts (visitArgs as) (argsEffect as)
  | [] => Acts.stay.of_eq (fun _ => by rw [visitArgs]) (by rw [argsEffect])
  | a :: as =>
    (a.visit_acts.andThen (visitArgs_acts as)).of_eq
      (fun _ => by rw [visitArgs]) (by rw [argsEffect])

theorem Key.visit_acts : ∀ k : Key, Acts k.visit k.effect
  | .fixed _ => Acts.stay.of_eq (fun _ => by rw [Key.visit]) (by rw [Key.effect])
  | .computed e => e.visit_acts.of_eq (fun _ => by rw [Key.visit]) (by rw [Key.effect])

theorem Property.visit_acts : ∀ p : Property, Acts p.visit p.effect
  | .shorthand id =>
    (Acts.use id _).of_eq (fun _ => by rw [Property.visit]) (by rw [Property.effect])
  | .shorthandDefault _ value =>
    value.visit_acts.of_eq (fun _ => by rw [Property.visit]) (by rw [Property.effect])
  | .keyValue key value =>
    (key.visit_acts.andThen value.visit_acts).of_eq
      (fun _ => by rw [Property.visit]) (by rw [Property.effect])
  | .spread _ e => e.visit_acts.of_eq (fun _ => by rw [Property.visit]) (by rw [Property.effect])
  | .method _ key f =>
    (key.visit_acts.andThen f.visit_acts).of_eq
      (fun _ => by rw [Property.visit]) (by rw [Property.effect])
  | .getter _ key types body =>
    ((key.visit_acts.andThen (visitExprs_acts types)).andThen
      ((visitStmts_acts body).scope false)).of_eq
        (fun _ => by rw [Property.visit]) (by rw [Property.effect])
  | .setter _ key param body =>
    (key.visit_acts.andThen (((param.declare_acts false).andThen
      ((visitStmts_acts body).scope false)).scope true)).of_eq
        (fun _ => by rw [Property.visit]) (by rw [Property.effect])

theorem visitProperties_acts : ∀ ps : List Property, Acts (visitProperties ps) (propertiesEffect ps)
  | [] => Acts.stay.of_eq (fun _ => by rw [visitProperties]) (by rw [propertiesEffect])
  | p :: ps =>
    (p.visit_acts.andThen (visitProperties_acts ps)).of_eq
      (fun _ => by rw [visitProperties]) (by rw [propertiesEffect])

theorem Pat.declare_acts (isVar : Bool) : ∀ p : Pat, Acts (p.declare isVar) (p.bindEffect isVar)
  | .ident id _ =>
    (Acts.declare isVar id.name).of_eq (fun _ => by rw [Pat.declare]) (by rw [Pat.bindEffect])
  | .array _ elements =>
    (declarePats_acts isVar elements).of_eq (fun _ => by rw [Pat.declare]) (by rw [Pat.bindEffect])
  | .rest _ argument =>
    (argument.declare_acts isVar).of_eq (fun _ => by rw [Pat.declare]) (by rw [Pat.bindEffect])
  | .object _ properties =>
    (declarePatProperties_acts isVar properties).of_eq
      (fun _ => by rw [Pat.declare]) (by rw [Pat.bindEffect])
  | .withDefault _ left right =>
    ((left.declare_acts isVar).andThen right.visit_acts).of_eq
      (fun _ => by rw [Pat.declare]) (by rw [Pat.bindEffect])
  | .expr e => e.visit_acts.of_eq (fun _ => by rw [Pat.declare]) (by rw [Pat.bindEffect])
  | .hole => Acts.stay.of_eq (fun _ => by rw [Pat.declare]) (by rw [Pat.bindEffect])

theorem declarePats_acts (isVar : Bool) :
    ∀ ps : List Pat, Acts (declarePats isVar ps) (patsBindEffect isVar ps)
  | [] => Acts.stay.of_eq (fun _ => by rw [declarePats]) (by rw [patsBindEffect])
  | p :: ps =>
    ((p.declare_acts isVar).andThen (declarePats_acts isVar ps)).of_eq
      (fun _ => by rw [declarePats]) (by rw [patsBindEffect])

theorem PatProperty.declare_acts (isVar : Bool) :
    ∀ p : PatProperty, Acts (p.declare isVar) (p.bindEffect isVar)
  | .keyValue key value =>
    (key.visit_acts.andThen (value.declare_acts isVar)).of_eq
      (fun _ => by rw [PatProperty.declare]) (by rw [PatProperty.bindEffect])
  | .shorthand id =>
    (Acts.declare isVar id.name).of_eq
      (fun _ => by rw [PatProperty.declare]) (by rw [PatProperty.bindEffect])
  | .shorthandDefault id value =>
    ((Acts.declare isVar id.name).andThen value.visit_acts).of_eq
      (fun _ => by rw [PatProperty.declare]) (by rw [PatProperty.bindEffect])
  | .rest argument =>
    (argument.declare_acts isVar).of_eq
      (fun _ => by rw [PatProperty.declare]) (by rw [PatProperty.bindEffect])

theorem declarePatProperties_acts (isVar : Bool) :
    ∀ ps : List PatProperty, Acts (declarePatProperties isVar ps) (patPropertiesBindEffect isVar ps)
  | [] => Acts.stay.of_eq (fun _ => by rw [declarePatProperties]) (by rw [patPropertiesBindEffect])
  | p :: ps =>
    ((p.declare_acts isVar).andThen (declarePatProperties_acts isVar ps)).of_eq
      (fun _ => by rw [declarePatProperties]) (by rw [patPropertiesBindEffect])

theorem Pat.write_acts : ∀ p : Pat, Acts p.write p.writeEffect
  | .ident id _ => (Acts.use id _).of_eq (fun _ => by rw [Pat.write]) (by rw [Pat.writeEffect])
  | .array _ elements =>
    (writePats_acts elements).of_eq (fun _ => by rw [Pat.write]) (by rw [Pat.writeEffect])
  | .rest _ argument =>
    argument.write_acts.of_eq (fun _ => by rw [Pat.write]) (by rw [Pat.writeEffect])
  | .object _ properties =>
    (writePatProperties_acts properties).of_eq
      (fun _ => by rw [Pat.write]) (by rw [Pat.writeEffect])
  | .withDefault _ left right =>
    (left.write_acts.andThen right.visit_acts).of_eq
      (fun _ => by rw [Pat.write]) (by rw [Pat.writeEffect])
  | .expr e => by
    refine Acts.of_eq ?_ (fun _ => by rw [Pat.write.eq_def]) (by rw [Pat.writeEffect.eq_def])
    cases e with
    | ident id => exact .use id _
    | _ => exact Expr.visit_acts _
  | .hole => Acts.stay.of_eq (fun _ => by rw [Pat.write]) (by rw [Pat.writeEffect])

theorem writePats_acts : ∀ ps : List Pat, Acts (writePats ps) (patsWriteEffect ps)
  | [] => Acts.stay.of_eq (fun _ => by rw [writePats]) (by rw [patsWriteEffect])
  | p :: ps =>
    (p.write_acts.andThen (writePats_acts ps)).of_eq
      (fun _ => by rw [writePats]) (by rw [patsWriteEffect])

theorem PatProperty.write_acts : ∀ p : PatProperty, Acts p.write p.writeEffect
  | .keyValue key value =>
    (key.visit_acts.andThen value.write_acts).of_eq
      (fun _ => by rw [PatProperty.write]) (by rw [PatProperty.writeEffect])
  | .shorthand id =>
    (Acts.use id _).of_eq (fun _ => by rw [PatProperty.write]) (by rw [PatProperty.writeEffect])
  | .shorthandDefault id value =>
    ((Acts.use id _).andThen value.visit_acts).of_eq
      (fun _ => by rw [PatProperty.write]) (by rw [PatProperty.writeEffect])
  | .rest argument =>
    argument.write_acts.of_eq (fun _ => by rw [PatProperty.write]) (by rw [PatProperty.writeEffect])

theorem writePatProperties_acts :
    ∀ ps : List PatProperty, Acts (writePatProperties ps) (patPropertiesWriteEffect ps)
  | [] => Acts.stay.of_eq (fun _ => by rw [writePatProperties]) (by rw [patPropertiesWriteEffect])
  | p :: ps =>
    (p.write_acts.andThen (writePatProperties_acts ps)).of_eq
      (fun _ => by rw [writePatProperties]) (by rw [patPropertiesWriteEffect])

theorem Func.visit_acts : ∀ f : Func, Acts f.visit f.effect
  | .mk params body =>
    ((((Acts.declareHere "arguments").andThen (declarePats_acts false params)).andThen
      ((visitStmts_acts body).scope false)).scope true).of_eq
        (fun _ => by rw [Func.visit]) (by rw [Func.effect])

theorem Class.visit_acts : ∀ c : Class, Acts c.visit c.effect
  | .mk heritage members =>
    ((visitExprs_acts heritage).andThen (visitMembers_acts members)).of_eq
      (fun _ => by rw [Class.visit]) (by rw [Class.effect])

theorem Member.visit_acts : ∀ m : Member, Acts m.visit m.effect
  | .constructor params body =>
    (((declarePats_acts false params).andThen ((visitStmts_acts body).scope false)).scope
      true).of_eq (fun _ => by rw [Member.visit]) (by rw [Member.effect])
  | .method key f =>
    (key.visit_acts.andThen f.visit_acts).of_eq
      (fun _ => by rw [Member.visit]) (by rw [Member.effect])
  | .field key parts =>
    (key.visit_acts.andThen (visitExprs_acts parts)).of_eq
      (fun _ => by rw [Member.visit]) (by rw [Member.effect])
  | .staticBlock body =>
    ((visitStmts_acts body).scope false).of_eq
      (fun _ => by rw [Member.visit]) (by rw [Member.effect])
  | .types parts =>
    (visitExprs_acts parts).of_eq (fun _ => by rw [Member.visit]) (by rw [Member.effect])

theorem visitMembers_acts : ∀ ms : List Member, Acts (visitMembers ms) (membersEffect ms)
  | [] => Acts.stay.of_eq (fun _ => by rw [visitMembers]) (by rw [membersEffect])
  | m :: ms =>
    (m.visit_acts.andThen (visitMembers_acts ms)).of_eq
      (fun _ => by rw [visitMembers]) (by rw [membersEffect])

theorem Declarator.visit_acts (isVar : Bool) :
    ∀ d : Declarator, Acts (d.visit isVar) (d.effect isVar)
  | .mk name init =>
    ((name.declare_acts isVar).andThen (visitExprs_acts init)).of_eq
      (fun _ => by rw [Declarator.visit]) (by rw [Declarator.effect])

theorem visitDeclarators_acts (isVar : Bool) :
    ∀ ds : List Declarator, Acts (visitDeclarators isVar ds) (declaratorsEffect isVar ds)
  | [] => Acts.stay.of_eq (fun _ => by rw [visitDeclarators]) (by rw [declaratorsEffect])
  | d :: ds =>
    ((d.visit_acts isVar).andThen (visitDeclarators_acts isVar ds)).of_eq
      (fun _ => by rw [visitDeclarators]) (by rw [declaratorsEffect])

theorem ForHead.visit_acts : ∀ x : ForHead, Acts x.visit x.effect
  | .declaration isVar declarators =>
    (visitDeclarators_acts isVar declarators).of_eq
      (fun _ => by rw [ForHead.visit]) (by rw [ForHead.effect])
  | .target p => p.write_acts.of_eq (fun _ => by rw [ForHead.visit]) (by rw [ForHead.effect])

theorem Stmt.visit_acts : ∀ x : Stmt, Acts x.visit x.effect
  | .expr _ e => e.visit_acts.of_eq (fun _ => by rw [Stmt.visit]) (by rw [Stmt.effect])
  | .plain _ _ exprs body =>
    ((visitExprs_acts exprs).andThen (visitStmts_acts body)).of_eq
      (fun _ => by rw [Stmt.visit]) (by rw [Stmt.effect])
  | .block _ body =>
    ((visitStmts_acts body).scope false).of_eq (fun _ => by rw [Stmt.visit]) (by rw [Stmt.effect])
  | .tryCatch _ body param handler finalizer =>
    have htried := (visitStmts_acts body).scope false
    have hcaught :=
      ((declarePats_acts false param).andThen ((visitStmts_acts handler).scope false)).scope false
    ((htried.andThen hcaught).andThen ((visitStmts_acts finalizer).scope false)).of_eq
      (fun _ => by rw [Stmt.visit]) (by rw [Stmt.effect])
  | .forLoop _ init exprs body =>
    ((((visitStmts_acts init).andThen (visitExprs_acts exprs)).andThen body.visit_acts).scope
      false).of_eq (fun _ => by rw [Stmt.visit]) (by rw [Stmt.effect])
  | .forEach _ _ head right body =>
    (((head.visit_acts.andThen right.visit_acts).andThen body.visit_acts).scope
      false).of_eq (fun _ => by rw [Stmt.visit]) (by rw [Stmt.effect])
  | .varDecl _ isVar declarators =>
    (visitDeclarators_acts isVar declarators).of_eq
      (fun _ => by rw [Stmt.visit]) (by rw [Stmt.effect])
  | .fnDecl _ name f =>
    ((Acts.declareHere name.name).andThen f.visit_acts).of_eq
      (fun _ => by rw [Stmt.visit]) (by rw [Stmt.effect])
  | .classDecl _ name c =>
    ((Acts.declareHere name.name).andThen c.visit_acts).of_eq
      (fun _ => by rw [Stmt.visit]) (by rw [Stmt.effect])

theorem visitStmts_acts : ∀ xs : List Stmt, Acts (visitStmts xs) (stmtsEffect xs)
  | [] => Acts.stay.of_eq (fun _ => by rw [visitStmts]) (by rw [stmtsEffect])
  | x :: xs =>
    (x.visit_acts.andThen (visitStmts_acts xs)).of_eq
      (fun _ => by rw [visitStmts]) (by rw [stmtsEffect])

end

/-! ## What is left -/

/-- The references of an expression are its uses of names, but for those that it declares outside of all
scopes of its own. -/
theorem Expr.mem_references_iff {e : Expr} {u : Use} :
    u ∈ e.references ↔ u ∈ e.effect.uses ∧ u.id.name ∉ e.effect.names.map Prod.snd := by
  rw [Expr.references, e.visit_acts.mem_finish_root]
  simp

/-- The references of patterns are the uses of names in them, but for those that they declare. -/
theorem mem_patReferences_iff {pats : List Pat} {u : Use} :
    u ∈ patReferences pats ↔ u ∈ (patsBindEffect false pats).uses ∧
      u.id.name ∉ (patsBindEffect false pats).names.map Prod.snd := by
  rw [patReferences, (declarePats_acts false pats).mem_finish_root]
  simp

/-- The references of the body of a script are the uses of names in it, but for those that are declared
in front of it or by it. -/
theorem mem_bodyReferences_iff {names : List String} {body : List Stmt} {u : Use} :
    u ∈ bodyReferences names body ↔ u ∈ (stmtsEffect body).uses ∧
      u.id.name ∉ (stmtsEffect body).names.map Prod.snd ∧ u.id.name ∉ names := by
  rw [bodyReferences, (visitStmts_acts body).mem_finish_root]

end TemplateSyntax.Script
