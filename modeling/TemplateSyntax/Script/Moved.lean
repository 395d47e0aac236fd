import TemplateSyntax.Script.Syntax

/-!
# Scripts at other places

A script is read from a text of its own.  What comes out is used where the text belongs: all places in
the syntax are moved there, and nothing else is changed.
-/

namespace TemplateSyntax.Script

/-- The name at another place. -/
def Ident.map (f : Nat → Nat) (id : Ident) : Ident := ⟨id.name, id.span.map f⟩

mutual

/-- An expression with its places moved. -/
def Expr.map (f : Nat → Nat) : Expr → Expr
  | .ident id => .ident (id.map f)
  | .number s => .number (s.map f)
  | .literal s => .literal (s.map f)
  | .array s elements => .array (s.map f) (mapArgs f elements)
  | .object s properties => .object (s.map f) (mapProperties f properties)
  | .fn s name x => .fn (s.map f) (name.map (Ident.map f)) (x.map f)
  | .cls s name c => .cls (s.map f) (name.map (Ident.map f)) (c.map f)
  | .arrow s params body => .arrow (s.map f) (mapPats f params) (body.map f)
  | .assign s op target value => .assign (s.map f) op (target.map f) (value.map f)
  | .update s argument => .update (s.map f) (argument.map f)
  | .unary s isVoid argument => .unary (s.map f) isVoid (argument.map f)
  | .binary s op left right => .binary (s.map f) op (left.map f) (right.map f)
  | .paren s inner => .paren (s.map f) (inner.map f)
  | .call s callee arguments types =>
    .call (s.map f) (callee.map f) (mapArgs f arguments) (mapExprs f types)
  | .compound kind s parts => .compound kind (s.map f) (mapExprs f parts)

/-- Expressions with their places moved. -/
def mapExprs (f : Nat → Nat) : List Expr → List Expr
  | [] => []
  | e :: es => e.map f :: mapExprs f es

/-- An argument with its places moved. -/
def Arg.map (f : Nat → Nat) : Arg → Arg
  | .item e => .item (e.map f)
  | .spread start e => .spread (f start) (e.map f)
  | .hole => .hole

/-- Arguments with their places moved. -/
def mapArgs (f : Nat → Nat) : List Arg → List Arg
  | [] => []
  | a :: as => a.map f :: mapArgs f as

/-- A key with its places moved. -/
def Key.map (f : Nat → Nat) : Key → Key
  | .fixed s => .fixed (s.map f)
  | .computed e => .computed (e.map f)

/-- A property of an object with its places moved. -/
def Property.map (f : Nat → Nat) : Property → Property
  | .shorthand id => .shorthand (id.map f)
  | .shorthandDefault id value => .shorthandDefault (id.map f) (value.map f)
  | .keyValue key value => .keyValue (key.map f) (value.map f)
  | .spread s e => .spread (s.map f) (e.map f)
  | .method s key x => .method (s.map f) (key.map f) (x.map f)
  | .getter s key types body => .getter (s.map f) (key.map f) (mapExprs f types) (mapStmts f body)
  | .setter s key param body => .setter (s.map f) (key.map f) (param.map f) (mapStmts f body)

/-- Properties of an object with their places moved. -/
def mapProperties (f : Nat → Nat) : List Property → List Property
  | [] => []
  | p :: ps => p.map f :: mapProperties f ps

/-- A pattern with its places moved. -/
def Pat.map (f : Nat → Nat) : Pat → Pat
  | .ident id s => .ident (id.map f) (s.map f)
  | .array s elements => .array (s.map f) (mapPats f elements)
  | .rest s argument => .rest (s.map f) (argument.map f)
  | .object s properties => .object (s.map f) (mapPatProperties f properties)
  | .withDefault s left right => .withDefault (s.map f) (left.map f) (right.map f)
  | .expr e => .expr (e.map f)
  | .hole => .hole

/-- Patterns with their places moved. -/
def mapPats (f : Nat → Nat) : List Pat → List Pat
  | [] => []
  | p :: ps => p.map f :: mapPats f ps

/-- A property of a pattern with its places moved. -/
def PatProperty.map (f : Nat → Nat) : PatProperty → PatProperty
  | .keyValue key value => .keyValue (key.map f) (value.map f)
  | .shorthand id => .shorthand (id.map f)
  | .shorthandDefault id value => .shorthandDefault (id.map f) (value.map f)
  | .rest argument => .rest (argument.map f)

/-- Properties of a pattern with their places moved. -/
def mapPatProperties (f : Nat → Nat) : List PatProperty → List PatProperty
  | [] => []
  | p :: ps => p.map f :: mapPatProperties f ps

/-- A function with its places moved. -/
def Func.map (f : Nat → Nat) : Func → Func
  | .mk params body => .mk (mapPats f params) (mapStmts f body)

/-- A class with its places moved. -/
def Class.map (f : Nat → Nat) : Class → Class
  | .mk heritage members => .mk (mapExprs f heritage) (mapMembers f members)

/-- A member of a class with its places moved. -/
def Member.map (f : Nat → Nat) : Member → Member
  | .constructor params body => .constructor (mapPats f params) (mapStmts f body)
  | .method key x => .method (key.map f) (x.map f)
  | .field key parts => .field (key.map f) (mapExprs f parts)
  | .staticBlock body => .staticBlock (mapStmts f body)
  | .types parts => .types (mapExprs f parts)

/-- Members of a class with their places moved. -/
def mapMembers (f : Nat → Nat) : List Member → List Member
  | [] => []
  | m :: ms => m.map f :: mapMembers f ms

/-- A declared pattern and its value with their places moved. -/
def Declarator.map (f : Nat → Nat) : Declarator → Declarator
  | .mk name init => .mk (name.map f) (mapExprs f init)

/-- Declared patterns with their places moved. -/
def mapDeclarators (f : Nat → Nat) : List Declarator → List Declarator
  | [] => []
  | d :: ds => d.map f :: mapDeclarators f ds

/-- What a loop assigns to with its places moved. -/
def ForHead.map (f : Nat → Nat) : ForHead → ForHead
  | .declaration isVar declarators => .declaration isVar (mapDeclarators f declarators)
  | .target p => .target (p.map f)

/-- A statement with its places moved. -/
def Stmt.map (f : Nat → Nat) : Stmt → Stmt
  | .expr s e => .expr (s.map f) (e.map f)
  | .plain kind s exprs body => .plain kind (s.map f) (mapExprs f exprs) (mapStmts f body)
  | .block s body => .block (s.map f) (mapStmts f body)
  | .tryCatch s body param handler finalizer =>
    .tryCatch (s.map f) (mapStmts f body) (mapPats f param) (mapStmts f handler)
      (mapStmts f finalizer)
  | .forLoop s init exprs body =>
    .forLoop (s.map f) (mapStmts f init) (mapExprs f exprs) (body.map f)
  | .forEach kind s head right body =>
    .forEach kind (s.map f) (head.map f) (right.map f) (body.map f)
  | .varDecl s isVar declarators => .varDecl (s.map f) isVar (mapDeclarators f declarators)
  | .fnDecl s name x => .fnDecl (s.map f) (name.map f) (x.map f)
  | .classDecl s name c => .classDecl (s.map f) (name.map f) (c.map f)

/-- Statements with their places moved. -/
def mapStmts (f : Nat → Nat) : List Stmt → List Stmt
  | [] => []
  | x :: xs => x.map f :: mapStmts f xs

end

end TemplateSyntax.Script
