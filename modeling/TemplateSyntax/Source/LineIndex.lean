import TemplateSyntax.Source.Offset
import TemplateSyntax.Text.Bytes

/-!
# Line index

The offsets at which the lines of a text begin.  A line ends at a line feed, or at a carriage
return that no line feed follows.
-/

namespace TemplateSyntax

/-- A line, counted from zero, and a byte column in it. -/
structure LineCol where
  line : Nat
  col : Nat
  deriving DecidableEq, Repr, Inhabited

/-- The starts of all lines in increasing order, the first of which is zero, and the size of the
text. -/
structure LineIndex where
  lineStarts : Array Nat
  size : Nat
  deriving DecidableEq, Repr, Inhabited

namespace LineIndex

/-- The starts of the lines that begin in the characters `cs`, the first of which is at `pos`. -/
def startsFrom (pos : Nat) : List Char → List Nat
  | [] => []
  | '\n' :: cs => (pos + 1) :: startsFrom (pos + 1) cs
  | '\r' :: cs =>
    match cs with
    | '\n' :: _ => startsFrom (pos + 1) cs
    | _ => (pos + 1) :: startsFrom (pos + 1) cs
  | c :: cs => startsFrom (pos + c.utf8Size) cs

/-- The line index of a text. -/
def ofChars (cs : List Char) : LineIndex := ⟨(0 :: startsFrom 0 cs).toArray, Text.byteLength cs⟩

/-- The line index of a string. -/
def ofString (text : String) : LineIndex := ofChars text.toList

/-- The number of lines; a text without a line break has one. -/
def lineCount (ix : LineIndex) : Nat := ix.lineStarts.size

/-- A binary search for an offset among the line starts in `[lo, hi)`: the index at which it is, or
else, as an error, the index at which it could be put. -/
def search (ix : LineIndex) (offset lo hi : Nat) : Except Nat Nat :=
  if lo < hi then
    let mid := lo + (hi - lo) / 2
    match compare (ix.lineStarts[mid]?.getD 0) offset with
    | .eq => .ok mid
    | .lt => ix.search offset (mid + 1) hi
    | .gt => ix.search offset lo mid
  else .error lo
termination_by hi - lo

/-- The line that holds an offset of the text: the one that starts there, or else the one in front of
where a line could start. -/
def lineOf (ix : LineIndex) (offset : Nat) : Nat :=
  match ix.search offset 0 ix.lineStarts.size with
  | .ok line => line
  | .error line => line - 1

/-- The line that holds an offset, and the column in it.  Past the end is the end. -/
def lineCol (ix : LineIndex) (offset : Nat) : LineCol :=
  let offset := min offset ix.size
  let line := ix.lineOf offset
  ⟨line, offset - ix.lineStarts[line]?.getD 0⟩

/-- `lineCol`, if there is such a line and it does not start behind the offset. -/
def lineCol? (ix : LineIndex) (offset : Nat) : Option LineCol := do
  let offset := min offset ix.size
  let line := ix.lineOf offset
  let start ← ix.lineStarts[line]?
  if start ≤ offset then some ⟨line, offset - start⟩ else none

/-- Where a line starts, if there is such a line. -/
def lineStart? (ix : LineIndex) (line : Nat) : Option Nat := ix.lineStarts[line]?

/-- The offset of a line and column, if there is such a line. -/
def offset? (ix : LineIndex) (place : LineCol) : Option Nat :=
  (ix.lineStart? place.line).map (· + place.col)

end LineIndex

end TemplateSyntax
