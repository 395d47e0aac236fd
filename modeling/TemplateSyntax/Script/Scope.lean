import TemplateSyntax.Embedded.Expression
import TemplateSyntax.Script.Syntax

/-!
# Names that script text takes from its surroundings

A walk over the syntax keeps a stack of frames, one for each scope that is open.  A use of a name
is put down in the innermost frame.  When a frame is closed, the uses of names that it does not
declare go to the frame around it; what leaves the last frame are the references of the text.
-/

namespace TemplateSyntax.Script

/-- A use of a name. -/
structure Use where
  id : Ident
  mode : ReferenceMode
  deriving DecidableEq, Repr, Inhabited

/-- A scope: the names it declares, and the uses that may mean one of them. -/
structure Frame where
  declared : List String := []
  /-- The latest use first. -/
  pending : List Use := []
  isFunction : Bool := false
  deriving DecidableEq, Repr, Inhabited

/-- The open scopes, the innermost first. -/
abbrev Frames := List Frame

namespace Frames

/-- Opens a scope. -/
def opened (isFunction : Bool) (fs : Frames) : Frames := { isFunction } :: fs

/-- The uses in a frame that mean nothing declared there, the latest first. -/
def unresolved (f : Frame) : List Use := f.pending.filter fun u => !f.declared.contains u.id.name

/-- Closes the innermost scope. -/
def closed : Frames → Frames
  | f :: g :: fs => { g with pending := unresolved f ++ g.pending } :: fs
  | fs => fs

/-- Puts a use down in the innermost scope. -/
def use (id : Ident) (mode : ReferenceMode) : Frames → Frames
  | f :: fs => { f with pending := ⟨id, mode⟩ :: f.pending } :: fs
  | [] => []

/-- Declares a name in the innermost scope. -/
def declareHere (name : String) : Frames → Frames
  | f :: fs => { f with declared := name :: f.declared } :: fs
  | [] => []

/-- Declares a name in the innermost scope of a function. -/
def declareVar (name : String) : Frames → Frames
  | f :: fs =>
    if f.isFunction then { f with declared := name :: f.declared } :: fs
    else f :: declareVar name fs
  | [] => []

/-- Declares a name, as a variable of the function or of the innermost scope. -/
def declare (isVar : Bool) (name : String) (fs : Frames) : Frames :=
  if isVar then fs.declareVar name else fs.declareHere name

/-- The uses that leave the outermost scope, in the order of their places. -/
def finish (fs : Frames) : List Use :=
  let rest := match fs with
    | f :: fs => fs.foldl (fun uses (g : Frame) =>
        unresolved { g with pending := uses ++ g.pending }) (unresolved f)
    | [] => []
  rest.reverse.mergeSort fun a b => a.id.span.start ≤ b.id.span.start

end Frames

mutual

/-- Walks over an expression. -/
def Expr.visit : Expr → Frames → Frames
  | .ident id, fs => fs.use id .read
  | .number _, fs => fs
  | .literal _, fs => fs
  | .array _ elements, fs => visitArgs elements fs
  | .object _ properties, fs => visitProperties properties fs
  | .fn _ name f, fs =>
    let fs := fs.opened false
    let fs := match name with
      | some id => fs.declareHere id.name
      | none => fs
    (f.visit fs).closed
  | .cls _ name c, fs =>
    let fs := fs.opened false
    let fs := match name with
      | some id => fs.declareHere id.name
      | none => fs
    (c.visit fs).closed
  | .arrow _ params body, fs => (body.visit (declarePats false params (fs.opened true))).closed
  | .assign _ op target value, fs =>
    value.visit <| match target with
      | .ident id _ => fs.use id (if op.isCompound then .readWrite else .write)
      | _ => target.write fs
  | .update _ argument, fs =>
    match argument with
    | .ident id => fs.use id .readWrite
    | _ => argument.visit fs
  | .unary _ _ argument, fs => argument.visit fs
  | .binary _ _ left right, fs => right.visit (left.visit fs)
  | .paren _ inner, fs => inner.visit fs
  | .call _ callee arguments types, fs => visitExprs types (visitArgs arguments (callee.visit fs))
  | .compound _ _ parts, fs => visitExprs parts fs

/-- Walks over expressions in a row. -/
def visitExprs : List Expr → Frames → Frames
  | [], fs => fs
  | e :: es, fs => visitExprs es (e.visit fs)

/-- Walks over an argument. -/
def Arg.visit : Arg → Frames → Frames
  | .item e, fs => e.visit fs
  | .spread _ e, fs => e.visit fs
  | .hole, fs => fs

/-- Walks over arguments in a row. -/
def visitArgs : List Arg → Frames → Frames
  | [], fs => fs
  | a :: as, fs => visitArgs as (a.visit fs)

/-- Walks over a key. -/
def Key.visit : Key → Frames → Frames
  | .fixed _, fs => fs
  | .computed e, fs => e.visit fs

/-- Walks over a property of an object. -/
def Property.visit : Property → Frames → Frames
  | .shorthand id, fs => fs.use id .read
  | .shorthandDefault _ value, fs => value.visit fs
  | .keyValue key value, fs => value.visit (key.visit fs)
  | .spread _ e, fs => e.visit fs
  | .method _ key f, fs => f.visit (key.visit fs)
  | .getter _ key types body, fs =>
    (visitStmts body ((visitExprs types (key.visit fs)).opened false)).closed
  | .setter _ key param body, fs =>
    let fs := param.declare false ((key.visit fs).opened true)
    (visitStmts body (fs.opened false)).closed.closed

/-- Walks over properties in a row. -/
def visitProperties : List Property → Frames → Frames
  | [], fs => fs
  | p :: ps, fs => visitProperties ps (p.visit fs)

/-- Declares the names of a pattern, and walks over its defaults and keys. -/
def Pat.declare (isVar : Bool) : Pat → Frames → Frames
  | .ident id _, fs => fs.declare isVar id.name
  | .array _ elements, fs => declarePats isVar elements fs
  | .rest _ argument, fs => argument.declare isVar fs
  | .object _ properties, fs => declarePatProperties isVar properties fs
  | .withDefault _ left right, fs => right.visit (left.declare isVar fs)
  | .expr e, fs => e.visit fs
  | .hole, fs => fs

/-- Declares the names of patterns in a row. -/
def declarePats (isVar : Bool) : List Pat → Frames → Frames
  | [], fs => fs
  | p :: ps, fs => declarePats isVar ps (p.declare isVar fs)

/-- Declares the names of a property of a pattern. -/
def PatProperty.declare (isVar : Bool) : PatProperty → Frames → Frames
  | .keyValue key value, fs => value.declare isVar (key.visit fs)
  | .shorthand id, fs => fs.declare isVar id.name
  | .shorthandDefault id value, fs => value.visit (fs.declare isVar id.name)
  | .rest argument, fs => argument.declare isVar fs

/-- Declares the names of properties of a pattern in a row. -/
def declarePatProperties (isVar : Bool) : List PatProperty → Frames → Frames
  | [], fs => fs
  | p :: ps, fs => declarePatProperties isVar ps (p.declare isVar fs)

/-- Puts down what an assignment to a pattern writes to. -/
def Pat.write : Pat → Frames → Frames
  | .ident id _, fs => fs.use id .write
  | .array _ elements, fs => writePats elements fs
  | .rest _ argument, fs => argument.write fs
  | .object _ properties, fs => writePatProperties properties fs
  | .withDefault _ left right, fs => right.visit (left.write fs)
  | .expr e, fs =>
    match e with
    | .ident id => fs.use id .write
    | _ => e.visit fs
  | .hole, fs => fs

/-- Puts down what an assignment to patterns in a row writes to. -/
def writePats : List Pat → Frames → Frames
  | [], fs => fs
  | p :: ps, fs => writePats ps (p.write fs)

/-- Puts down what an assignment to a property of a pattern writes to. -/
def PatProperty.write : PatProperty → Frames → Frames
  | .keyValue key value, fs => value.write (key.visit fs)
  | .shorthand id, fs => fs.use id .write
  | .shorthandDefault id value, fs => value.visit (fs.use id .write)
  | .rest argument, fs => argument.write fs

/-- Puts down what an assignment to properties of a pattern writes to. -/
def writePatProperties : List PatProperty → Frames → Frames
  | [], fs => fs
  | p :: ps, fs => writePatProperties ps (p.write fs)

/-- Walks over a function, in which `arguments` is declared. -/
def Func.visit : Func → Frames → Frames
  | .mk params body, fs =>
    let fs := declarePats false params ((fs.opened true).declareHere "arguments")
    (visitStmts body (fs.opened false)).closed.closed

/-- Walks over a class. -/
def Class.visit : Class → Frames → Frames
  | .mk heritage members, fs => visitMembers members (visitExprs heritage fs)

/-- Walks over a member of a class. -/
def Member.visit : Member → Frames → Frames
  | .constructor params body, fs =>
    let fs := declarePats false params (fs.opened true)
    (visitStmts body (fs.opened false)).closed.closed
  | .method key f, fs => f.visit (key.visit fs)
  | .field key parts, fs => visitExprs parts (key.visit fs)
  | .staticBlock body, fs => (visitStmts body (fs.opened false)).closed
  | .types parts, fs => visitExprs parts fs

/-- Walks over members of a class in a row. -/
def visitMembers : List Member → Frames → Frames
  | [], fs => fs
  | m :: ms, fs => visitMembers ms (m.visit fs)

/-- Walks over a declared pattern and its value. -/
def Declarator.visit (isVar : Bool) : Declarator → Frames → Frames
  | .mk name init, fs => visitExprs init (name.declare isVar fs)

/-- Walks over declared patterns in a row. -/
def visitDeclarators (isVar : Bool) : List Declarator → Frames → Frames
  | [], fs => fs
  | d :: ds, fs => visitDeclarators isVar ds (d.visit isVar fs)

/-- Walks over what a loop assigns to. -/
def ForHead.visit : ForHead → Frames → Frames
  | .declaration isVar declarators, fs => visitDeclarators isVar declarators fs
  | .target p, fs => p.write fs

/-- Walks over a statement. -/
def Stmt.visit : Stmt → Frames → Frames
  | .expr _ e, fs => e.visit fs
  | .plain _ _ exprs body, fs => visitStmts body (visitExprs exprs fs)
  | .block _ body, fs => (visitStmts body (fs.opened false)).closed
  | .tryCatch _ body param handler finalizer, fs =>
    let fs := (visitStmts body (fs.opened false)).closed
    let fs := declarePats false param (fs.opened false)
    let fs := (visitStmts handler (fs.opened false)).closed.closed
    (visitStmts finalizer (fs.opened false)).closed
  | .forLoop _ init exprs body, fs =>
    (body.visit (visitExprs exprs (visitStmts init (fs.opened false)))).closed
  | .forEach _ _ head right body, fs =>
    (body.visit (right.visit (head.visit (fs.opened false)))).closed
  | .varDecl _ isVar declarators, fs => visitDeclarators isVar declarators fs
  | .fnDecl _ name f, fs => f.visit (fs.declareHere name.name)
  | .classDecl _ name c, fs => c.visit (fs.declareHere name.name)

/-- Walks over statements in a row. -/
def visitStmts : List Stmt → Frames → Frames
  | [], fs => fs
  | s :: ss, fs => visitStmts ss (s.visit fs)

end

/-- The frames of a text that may use some names freely. -/
def Frames.root (names : List String) : Frames := [{ declared := names, isFunction := true }]

/-- The references of an expression. -/
def Expr.references (e : Expr) : List Use := (e.visit (Frames.root [])).finish

/-- The references of an expression and of the arguments of the filters behind it, which are collected
as one. -/
def filteredReferences (head : Expr) (arguments : List Arg) : List Use :=
  (visitArgs arguments (head.visit (Frames.root []))).finish

/-- The references of the statements of a function body, in which some names are declared. -/
def bodyReferences (names : List String) (body : List Stmt) : List Use :=
  (visitStmts body (Frames.root names)).finish

/-- The references in the defaults and keys of patterns that are bound together. -/
def patReferences (pats : List Pat) : List Use :=
  (declarePats false pats (Frames.root [])).finish

mutual

/-- The names that a pattern binds, in order. -/
def Pat.bound : Pat → List Ident
  | .ident id _ => [id]
  | .array _ elements => boundByPats elements
  | .rest _ argument => argument.bound
  | .object _ properties => boundByProperties properties
  | .withDefault _ left _ => left.bound
  | .expr _ => []
  | .hole => []

/-- The names that patterns in a row bind. -/
def boundByPats : List Pat → List Ident
  | [] => []
  | p :: ps => p.bound ++ boundByPats ps

/-- The names that a property of a pattern binds. -/
def PatProperty.bound : PatProperty → List Ident
  | .keyValue _ value => value.bound
  | .shorthand id => [id]
  | .shorthandDefault id _ => [id]
  | .rest argument => argument.bound

/-- The names that properties of a pattern bind. -/
def boundByProperties : List PatProperty → List Ident
  | [] => []
  | p :: ps => p.bound ++ boundByProperties ps

end

end TemplateSyntax.Script
