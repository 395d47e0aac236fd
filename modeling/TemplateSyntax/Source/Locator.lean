import TemplateSyntax.Source.LineIndex
import TemplateSyntax.Source.Span

/-!
# Positions in the host file

A template sits somewhere in a larger file.  A locator turns indices of the template and
offsets of the file into each other, and offsets into lines and columns of the file.
-/

namespace TemplateSyntax

/-- Where the first byte of the template is: offset, line from one, byte column from zero. -/
structure Origin where
  offset : Nat
  line : Nat
  column : Nat
  deriving DecidableEq, Repr

namespace Origin

/-- A template that is a file of its own. -/
def fileStart : Origin := ⟨0, 1, 0⟩

instance : Inhabited Origin := ⟨fileStart⟩

end Origin

/-- A line, counted from one, and a byte column, counted from zero. -/
structure Position where
  line : Nat
  column : Nat
  deriving DecidableEq, Repr, Inhabited

/-- The positions of the two ends of a span. -/
structure Location where
  start : Position
  stop : Position
  deriving DecidableEq, Repr, Inhabited

/-- The origin of a template and the lines of its text. -/
structure Locator where
  origin : Origin
  index : LineIndex
  deriving Repr, Inhabited

namespace Locator

/-- The locator of a text at an origin. -/
def ofChars (cs : List Char) (origin : Origin) : Locator := ⟨origin, LineIndex.ofChars cs⟩

/-- The locator of a string at an origin. -/
def ofString (text : String) (origin : Origin) : Locator := ofChars text.toList origin

variable (l : Locator)

/-- The host offset of a template index. -/
def host (index : Nat) : Nat := l.origin.offset + index

/-- The template index of a host offset; what precedes the template is its start. -/
def relative (offset : Nat) : Nat := offset - l.origin.offset

/-- Whether a host offset lies in the template, or at its end. -/
def covers (offset : Nat) : Bool := l.host 0 ≤ offset && offset ≤ l.host l.index.size

/-- The span of the whole template. -/
def fullSpan : Span := ⟨l.host 0, l.host l.index.size⟩

/-- The place of a line and column of the template in the host file.  Only the first line of the
template is shifted sideways. -/
def place (lc : LineCol) : Position :=
  ⟨l.origin.line + lc.line, if lc.line = 0 then l.origin.column + lc.col else lc.col⟩

/-- The position of a host offset. -/
def position (offset : Nat) : Position := l.place (l.index.lineCol (l.relative offset))

/-- The positions of the ends of a span. -/
def location (s : Span) : Location := ⟨l.position s.start, l.position s.stop⟩

/-- The host offset of a template index, if it fits a word. -/
def host? (index : Nat) : Option Nat := Offset.check (l.host index)

/-- The span of the whole template, if it fits. -/
def fullSpan? : Option Span := do
  let start ← l.host? 0
  let stop ← l.host? l.index.size
  return ⟨start, stop⟩

/-- The position of a host offset, if it can be looked up, and line and column fit a word. -/
def position? (offset : Nat) : Option Position := do
  let p := l.place (← l.index.lineCol? (l.relative offset))
  let line ← Offset.check p.line
  let column ← Offset.check p.column
  return ⟨line, column⟩

/-- The positions of the ends of a span, if they fit. -/
def location? (s : Span) : Option Location := do
  let start ← l.position? s.start
  let stop ← l.position? s.stop
  return ⟨start, stop⟩

end Locator

end TemplateSyntax
