/-!
# Kinds of script syntax

The kinds of expressions, patterns and statements, with their names in answers.
-/

namespace TemplateSyntax.Script

/-- What an expression is at its outermost. -/
inductive ExprKind where
  | this | array | object | fn | unary | update | bin | assign | member | superProp | cond | call
  | new | seq | ident | lit | tpl | taggedTpl | arrow | cls | yield | metaProp | await | paren
  | tsTypeAssertion | tsConstAssertion | tsNonNull | tsAs | tsInstantiation | tsSatisfies
  | optChain | other
  deriving DecidableEq, Repr, Inhabited

namespace ExprKind

/-- The name of a kind. -/
def name : ExprKind → String
  | this => "This"
  | array => "Array"
  | object => "Object"
  | fn => "Fn"
  | unary => "Unary"
  | update => "Update"
  | bin => "Bin"
  | assign => "Assign"
  | member => "Member"
  | superProp => "SuperProp"
  | cond => "Cond"
  | call => "Call"
  | new => "New"
  | seq => "Seq"
  | ident => "Ident"
  | lit => "Lit"
  | tpl => "Tpl"
  | taggedTpl => "TaggedTpl"
  | arrow => "Arrow"
  | cls => "Class"
  | yield => "Yield"
  | metaProp => "MetaProp"
  | await => "Await"
  | paren => "Paren"
  | tsTypeAssertion => "TsTypeAssertion"
  | tsConstAssertion => "TsConstAssertion"
  | tsNonNull => "TsNonNull"
  | tsAs => "TsAs"
  | tsInstantiation => "TsInstantiation"
  | tsSatisfies => "TsSatisfies"
  | optChain => "OptChain"
  | other => "Other"

end ExprKind

/-- What a pattern is at its outermost. -/
inductive PatKind where
  | ident | array | rest | object | assign
  deriving DecidableEq, Repr, Inhabited

namespace PatKind

/-- The name of a kind. -/
def name : PatKind → String
  | ident => "Ident"
  | array => "Array"
  | rest => "Rest"
  | object => "Object"
  | assign => "Assign"

end PatKind

/-- What a statement is. -/
inductive StmtKind where
  | block | empty | debugger | withStmt | returnStmt | labeled | breakStmt | continueStmt
  | ifStmt | switch | throw | tryStmt | whileStmt | doWhile | forStmt | forIn | forOf | expr
  | classDecl | fnDecl | varDecl | otherDecl
  deriving DecidableEq, Repr, Inhabited

namespace StmtKind

/-- The name of a kind. -/
def name : StmtKind → String
  | block => "Block"
  | empty => "Empty"
  | debugger => "Debugger"
  | withStmt => "With"
  | returnStmt => "Return"
  | labeled => "Labeled"
  | breakStmt => "Break"
  | continueStmt => "Continue"
  | ifStmt => "If"
  | switch => "Switch"
  | throw => "Throw"
  | tryStmt => "Try"
  | whileStmt => "While"
  | doWhile => "DoWhile"
  | forStmt => "For"
  | forIn => "ForIn"
  | forOf => "ForOf"
  | expr => "Expr"
  | classDecl => "ClassDecl"
  | fnDecl => "FnDecl"
  | varDecl => "VarDecl"
  | otherDecl => "OtherDecl"

end StmtKind

/-- The language of embedded expressions. -/
inductive Lang where
  | javaScript | typeScript
  deriving DecidableEq, Repr, Inhabited

end TemplateSyntax.Script
