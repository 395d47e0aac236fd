import TemplateSyntax.Script.Parser.Expression
import TemplateSyntax.Script.Parser.Statement

/-!
# Reading a script

The rules of the grammar refer to each other.  Here they are tied together, level upon level: a
rule of one level uses the rules of the level below.  Between two tokens no rule goes down more
than a few levels, so the length of a text bounds the number of levels that are ever reached.
-/

namespace TemplateSyntax.Script

namespace Grammar

/-- The rules of the lowest level, which accept nothing. -/
def bottom : Grammar where
  unary := Parser.unexpected
  leftHand := Parser.unexpected
  assignment := Parser.unexpected
  expression := Parser.unexpected
  binding := Parser.unexpected
  statement := Parser.unexpected
  substatement := Parser.unexpected
  typing := Parser.unexpected

/-- The rules on top of a level. -/
def above (g : Grammar) : Grammar where
  unary := Parser.unaryExpr g
  leftHand := Parser.leftHandSide g
  assignment := Parser.assignmentExpr g
  expression := Parser.sequenceExpr g
  binding := Parser.bindingTarget g
  statement := Parser.anyStatement g true
  substatement := Parser.anyStatement g false
  typing := Parser.anyType g

/-- The rules with a number of levels. -/
def level : Nat → Grammar
  | 0 => bottom
  | n + 1 => (level n).above

/-- As many levels as a text of this many characters can reach. -/
def levelsFor (length : Nat) : Nat := 4 * length + 16

end Grammar

/-- Statements up to the end of the text. -/
def Parser.program (g : Grammar) : Parser (List Stmt) :=
  Parser.many do
    if ← Parser.atEnd then return none
    return some (← g.statement)

/-- What scripts are read with: the statements of a text, or the byte index of what is wrong. -/
abbrev Reader := Lang → List Char → Except Nat (List Stmt)

/-- The statements of a script, or the byte index of what is wrong: of the fault that stopped
the reading, or else of the first that did not. -/
def parse (lang : Lang) (cs : List Char) : Except Nat (List Stmt) :=
  let g := Grammar.level (Grammar.levelsFor cs.length)
  match Parser.program g (ParseState.ofChars lang cs) with
  | .error index _ => .error index
  | .ok body s =>
    match s.recovered with
    | some index => .error index
    | none => .ok body

end TemplateSyntax.Script
