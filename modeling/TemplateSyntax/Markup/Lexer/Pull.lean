import TemplateSyntax.Markup.Lexer.Step

/-!
# Pulling tokens

`pull` hands out one token at a time.  It steps only when no finished token is left, so that
whoever pulls can change the state of the lexer right after a token.
-/

namespace TemplateSyntax

namespace Lexer

/-- Finishes the tokens that are left at the end of the text. -/
def finish (l : Lexer) : Lexer :=
  { l with
    finished := true
    buffer := (l.buffer.commitHeldBack l.locator l.cursor.index).commitCurrent l.locator
      l.cursor.index }

/-- One step: the next character, or the current one again, in the current state.  The step that
takes the end of the text finishes the lexer. -/
def advanceStep (l : Lexer) : Lexer :=
  let l := if l.again then { l with again := false } else l.advance
  let next := l.step
  let next := { next with log := (l.traceTo next.state).log }
  if next.cursor.char.isNone && !next.again then
    next.finish
  else next

/-- An upper bound for the steps that are left: each character, and the end of the text, is
taken by at most four steps. -/
def stepsLeft (l : Lexer) : Nat := 4 * (l.cursor.rest.length + 2)

/-- Steps until a token is ready or the text is over. -/
def run : Nat → Lexer → Option Token × Lexer
  | fuel, l =>
    match l.buffer.ready with
    | t :: ready => (some t, { l with buffer := { l.buffer with ready } })
    | [] =>
      if l.finished then (none, l)
      else
        match fuel with
        | 0 => (none, { l with finished := true, breaches := .outOfSteps :: l.breaches })
        | fuel + 1 => run fuel l.advanceStep

/-- The next token, or nothing at the end of the text. -/
def pull (l : Lexer) : Option Token × Lexer := l.run l.stepsLeft

/-- The gaps in increasing order, each once. -/
def sortedGaps (l : Lexer) : Array Nat :=
  l.gaps.toList.mergeSort.eraseReps.toArray

end Lexer

end TemplateSyntax
