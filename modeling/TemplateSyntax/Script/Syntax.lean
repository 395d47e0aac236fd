import TemplateSyntax.Script.Kind
import TemplateSyntax.Source.Span

/-!
# Script syntax

The syntax of scripts, kept as far as bindings and the uses of names depend on it.  Nodes that
bind nothing and have no scope of their own are one `compound` expression or `plain` statement,
which names the kind and lists the parts.  Of a type only the expressions in it are kept, which
are the keys of its members.  Spans are byte ranges of the text that was parsed.
-/

namespace TemplateSyntax.Script

/-- A name at a place. -/
structure Ident where
  name : String
  span : Span
  deriving DecidableEq, Repr, Inhabited

/-- The binary operators that matter: those that may not stand next to each other, and `|`, which
parts filters in a template. -/
inductive BinaryOp where
  | logical | nullish | bitOr | other
  deriving DecidableEq, Repr, Inhabited

/-- What an assignment does: it sets a new value, or makes it of the old one with `|` or with
another operator. -/
inductive AssignOp where
  | set | bitOr | other
  deriving DecidableEq, Repr, Inhabited

/-- Whether an assignment uses the old value. -/
def AssignOp.isCompound (op : AssignOp) : Bool := op != .set

mutual

/-- An expression. -/
inductive Expr where
  | ident (id : Ident)
  | number (span : Span)
  /-- Any literal but a number. -/
  | literal (span : Span)
  | array (span : Span) (elements : List Arg)
  | object (span : Span) (properties : List Property)
  | fn (span : Span) (name : Option Ident) (f : Func)
  | cls (span : Span) (name : Option Ident) (c : Class)
  /-- The body is a block, or an expression as a statement. -/
  | arrow (span : Span) (params : List Pat) (body : Stmt)
  | assign (span : Span) (op : AssignOp) (target : Pat) (value : Expr)
  | update (span : Span) (argument : Expr)
  | unary (span : Span) (isVoid : Bool) (argument : Expr)
  | binary (span : Span) (op : BinaryOp) (left right : Expr)
  | paren (span : Span) (inner : Expr)
  /-- A call, with the expressions in its type arguments. -/
  | call (span : Span) (callee : Expr) (arguments : List Arg) (types : List Expr)
  /-- Any other expression by its parts. -/
  | compound (kind : ExprKind) (span : Span) (parts : List Expr)

/-- An element of an array or an argument of a call. -/
inductive Arg where
  | item (e : Expr)
  /-- A spread, with the place of its dots. -/
  | spread (start : Nat) (e : Expr)
  | hole

/-- The key of a property or member. -/
inductive Key where
  | fixed (span : Span)
  | computed (e : Expr)

/-- A property of an object. -/
inductive Property where
  | shorthand (id : Ident)
  /-- A shorthand with a default, which makes sense in patterns only. -/
  | shorthandDefault (id : Ident) (value : Expr)
  | keyValue (key : Key) (value : Expr)
  | spread (span : Span) (e : Expr)
  | method (span : Span) (key : Key) (f : Func)
  | getter (span : Span) (key : Key) (types : List Expr) (body : List Stmt)
  | setter (span : Span) (key : Key) (param : Pat) (body : List Stmt)

/-- A pattern of a binding or an assignment. -/
inductive Pat where
  /-- A name; the span has the type that goes with it. -/
  | ident (id : Ident) (span : Span)
  | array (span : Span) (elements : List Pat)
  | rest (span : Span) (argument : Pat)
  | object (span : Span) (properties : List PatProperty)
  /-- A pattern with a default. -/
  | withDefault (span : Span) (left : Pat) (right : Expr)
  /-- The target of an assignment that is no pattern. -/
  | expr (e : Expr)
  | hole

/-- A property of an object pattern. -/
inductive PatProperty where
  | keyValue (key : Key) (value : Pat)
  | shorthand (id : Ident)
  | shorthandDefault (id : Ident) (value : Expr)
  | rest (argument : Pat)

/-- The parameters and the body of a function. -/
inductive Func where
  | mk (params : List Pat) (body : List Stmt)

/-- The expressions in the head of a class, and its members. -/
inductive Class where
  | mk (heritage : List Expr) (members : List Member)

/-- A member of a class. -/
inductive Member where
  | constructor (params : List Pat) (body : List Stmt)
  | method (key : Key) (f : Func)
  /-- A field, with its value and the expressions in its type. -/
  | field (key : Key) (parts : List Expr)
  | staticBlock (body : List Stmt)
  /-- A member that is a type only. -/
  | types (parts : List Expr)

/-- A declared pattern and its value, if it has one. -/
inductive Declarator where
  | mk (name : Pat) (init : List Expr)

/-- What a loop over a collection assigns to. -/
inductive ForHead where
  | declaration (isVar : Bool) (declarators : List Declarator)
  | target (p : Pat)

/-- A statement. -/
inductive Stmt where
  | expr (span : Span) (e : Expr)
  /-- Any statement without a scope of its own by its parts. -/
  | plain (kind : StmtKind) (span : Span) (exprs : List Expr) (body : List Stmt)
  | block (span : Span) (body : List Stmt)
  | tryCatch (span : Span) (body : List Stmt) (param : List Pat) (handler finalizer : List Stmt)
  | forLoop (span : Span) (init : List Stmt) (exprs : List Expr) (body : Stmt)
  | forEach (kind : StmtKind) (span : Span) (head : ForHead) (right : Expr) (body : Stmt)
  | varDecl (span : Span) (isVar : Bool) (declarators : List Declarator)
  | fnDecl (span : Span) (name : Ident) (f : Func)
  | classDecl (span : Span) (name : Ident) (c : Class)

end

instance : Inhabited Expr := ⟨.literal default⟩
instance : Inhabited Pat := ⟨.hole⟩
instance : Inhabited Stmt := ⟨.block default []⟩

namespace Expr

/-- Where an expression is. -/
def span : Expr → Span
  | ident id => id.span
  | number s | literal s | array s _ | object s _ | fn s _ _ | cls s _ _ | arrow s _ _
  | assign s _ _ _ | update s _ | unary s _ _ | binary s _ _ _ | paren s _ | call s _ _ _
  | compound _ s _ => s

/-- What an expression is. -/
def kind : Expr → ExprKind
  | ident _ => .ident
  | number _ | literal _ => .lit
  | array .. => .array
  | object .. => .object
  | fn .. => .fn
  | cls .. => .cls
  | arrow .. => .arrow
  | assign .. => .assign
  | update .. => .update
  | unary .. => .unary
  | binary .. => .bin
  | paren .. => .paren
  | call .. => .call
  | compound k _ _ => k

/-- Whether the expression is an arrow function without parentheses around it. -/
def isArrow : Expr → Bool
  | arrow .. => true
  | _ => false

/-- The expression without the parentheses around it. -/
def withoutParens : Expr → Expr
  | paren _ e => e.withoutParens
  | e => e

/-- Whether the expression may be assigned to. -/
def isAssignable : Expr → Bool
  | ident _ => true
  | paren _ e => e.isAssignable
  | compound k _ (e :: _) =>
    match k with
    | .member | .superProp => true
    | .tsAs | .tsNonNull | .tsTypeAssertion | .tsSatisfies => e.isAssignable
    | _ => false
  | compound k _ [] => k == .superProp
  | _ => false

/-- Whether the expression is a link of an optional chain, maybe with `!` behind it. -/
def isOptionalChain : Expr → Bool
  | compound .optChain _ _ => true
  | compound .tsNonNull _ (e :: _) => e.isOptionalChain
  | _ => false

end Expr

namespace Arg

/-- The expression of an argument. -/
def expr? : Arg → Option Expr
  | item e | spread _ e => some e
  | hole => none

end Arg

namespace Pat

/-- Where a pattern is. -/
def span : Pat → Span
  | ident _ s | array s _ | rest s _ | object s _ | withDefault s _ _ => s
  | expr e => e.span
  | hole => Span.empty 0

/-- What a pattern is.  Holes and targets of assignments have no kind. -/
def kind? : Pat → Option PatKind
  | ident .. => some .ident
  | array .. => some .array
  | rest .. => some .rest
  | object .. => some .object
  | withDefault .. => some .assign
  | expr _ | hole => none

end Pat

namespace Stmt

/-- Where a statement is. -/
def span : Stmt → Span
  | expr s _ | plain _ s _ _ | block s _ | tryCatch s _ _ _ _ | forLoop s _ _ _
  | forEach _ s _ _ _ | varDecl s _ _ | fnDecl s _ _ | classDecl s _ _ => s

/-- What a statement is. -/
def kind : Stmt → StmtKind
  | expr .. => .expr
  | plain k _ _ _ => k
  | block .. => .block
  | tryCatch .. => .tryStmt
  | forLoop .. => .forStmt
  | forEach k _ _ _ _ => k
  | varDecl .. => .varDecl
  | fnDecl .. => .fnDecl
  | classDecl .. => .classDecl

end Stmt

end TemplateSyntax.Script
