import TemplateSyntax.Script.Syntax

/-!
# Embedded expressions

What a directive value, a dynamic argument or a mustache holds: an expression with its parts
named by kind and host span, the references it makes, and the variables it declares.
-/

namespace TemplateSyntax

/-- How a reference uses its variable. -/
inductive ReferenceMode where
  | read | write | readWrite
  deriving DecidableEq, Repr, Inhabited

namespace ReferenceMode

/-- The short name of a mode. -/
def name : ReferenceMode → String
  | read => "r"
  | write => "w"
  | readWrite => "rw"

end ReferenceMode

/-- A variable by the element that declares it and its index there. -/
structure VariableRef where
  element : Nat
  index : Nat
  deriving DecidableEq, Repr, Inhabited

/-- The use of an identifier that the expression itself does not bind. -/
structure Reference where
  name : String
  mode : ReferenceMode
  span : Span
  /-- The variable of the template that is meant, if there is one. -/
  target : Option VariableRef
  deriving DecidableEq, Repr, Inhabited

namespace Reference

/-- The identifier that a reference is. -/
def ident (r : Reference) : Script.Ident := ⟨r.name, r.span⟩

end Reference

/-- What declares a variable: an iteration or a scope. -/
inductive VariableKind where
  | iteration | scope
  deriving DecidableEq, Repr, Inhabited

namespace VariableKind

/-- The name of a kind. -/
def name : VariableKind → String
  | iteration => "iteration"
  | scope => "scope"

end VariableKind

/-- A variable of the template, and the identifiers that mean it. -/
structure Variable where
  name : String
  span : Span
  kind : VariableKind
  uses : Array Script.Ident
  deriving DecidableEq, Repr, Inhabited

namespace Variable

/-- Where the identifiers that mean a variable are. -/
def references (x : Variable) : Array Span := x.uses.map Script.Ident.span

end Variable

/-- A piece of script syntax by its kind and host span. -/
structure Shape (Kind : Type) where
  kind : Kind
  span : Span
  deriving DecidableEq, Repr, Inhabited

/-- An argument of a filter, which may be spread. -/
structure FilterArgument where
  isSpread : Bool
  expression : Shape Script.ExprKind
  deriving DecidableEq, Repr, Inhabited

/-- A filter: a name, with arguments if it is called. -/
structure Filter where
  name : String
  nameSpan : Span
  arguments : List FilterArgument
  span : Span
  deriving DecidableEq, Repr, Inhabited

/-- The ways of reading an embedded text. -/
inductive Expression where
  | plain (expression : Shape Script.ExprKind)
  /-- Aliases, and what they iterate over. -/
  | iteration (left : List (Shape Script.PatKind)) (right : Shape Script.ExprKind)
      (hasParens : Bool) (leftSpan span : Span)
  /-- The statements of an event handler. -/
  | handler (body : List (Shape Script.StmtKind)) (span : Span)
  /-- The parameters of a scope. -/
  | parameters (params : List (Shape Script.PatKind)) (span : Span)
  /-- An expression that goes through filters. -/
  | filtered (head : Shape Script.ExprKind) (filters : List Filter) (span : Span)
  deriving DecidableEq, Repr, Inhabited

namespace Expression

/-- The name of the type of an expression. -/
def typeName : Expression → String
  | plain _ => "Expression"
  | iteration .. => "VForExpression"
  | handler .. => "VOnExpression"
  | parameters .. => "VSlotScopeExpression"
  | filtered .. => "VFilterSequenceExpression"

/-- Where an expression is. -/
def span : Expression → Span
  | plain e => e.span
  | iteration _ _ _ _ span => span
  | handler _ span => span
  | parameters _ span => span
  | filtered _ _ span => span

end Expression

/-- What was read from an embedded text; a blank text has no expression. -/
structure Embedded where
  expression : Option Expression := none
  references : Array Reference := #[]
  bindings : Array Variable := #[]
  deriving DecidableEq, Repr, Inhabited

end TemplateSyntax
