import TemplateSyntax.Diagnostic
import TemplateSyntax.Markup.Lexer.State

/-!
# The log of a run

Reading a template can leave a log: the moves of the lexer and the units that the tree builder
takes, which are recorded on request only, and the decisions on directives and expressions.
-/

namespace TemplateSyntax

/-- How much detail an entry of the log gives. -/
inductive LogLevel where
  | trace | debug
  deriving DecidableEq, Repr, Inhabited

namespace LogLevel

/-- The name of a level. -/
def name : LogLevel → String
  | trace => "trace"
  | debug => "debug"

end LogLevel

/-- What happened. -/
inductive LogEntry where
  /-- The lexer went from one state to another at an index of the template. -/
  | transition (source target : LexState) (index : Nat)
  /-- The tree builder took a unit while a number of elements were open. -/
  | pulled (opened : Nat) (span : Span)
  /-- Interpolation is off inside an element. -/
  | interpolationOff (element : String)
  /-- An attribute becomes a directive. -/
  | converting (rawName name : String)
  /-- The name of a directive is wrong at a host offset. -/
  | keyFault (offset : Nat) (fault : KeyFault)
  /-- An expression is wrong at a host offset. -/
  | expressionFault (offset : Nat) (fault : ExpressionFault)
  deriving DecidableEq, Repr, Inhabited

namespace LogEntry

/-- The level of an entry. -/
def level : LogEntry → LogLevel
  | transition .. | pulled .. => .trace
  | _ => .debug

/-- The wording of an entry. -/
def message : LogEntry → String
  | transition source target index =>
    "tokenizer: " ++ source.name ++ " -> " ++ target.name ++ " at " ++ toString index
  | pulled opened span =>
    "tree builder: " ++ toString opened ++ " open, token at Span \x7b start: " ++
      toString span.start ++ ", end: " ++ toString span.stop ++ " \x7d"
  | interpolationOff element => "v-pre on <" ++ element ++ ">, interpolation disabled"
  | converting rawName name => "converting " ++ rawName ++ " to directive '" ++ name ++ "'"
  | keyFault offset fault =>
    "invalid directive at " ++ toString offset ++ ": " ++ fault.message
  | expressionFault offset fault =>
    match fault.message? with
    | some message => "expression error at " ++ toString offset ++ ": " ++ message
    | none => "expression parse failed at " ++ toString offset

/-- An entry with its level. -/
def line (e : LogEntry) : String := e.level.name ++ " " ++ e.message

end LogEntry

end TemplateSyntax
