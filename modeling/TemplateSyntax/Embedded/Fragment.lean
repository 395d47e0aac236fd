import TemplateSyntax.Diagnostic
import TemplateSyntax.Embedded.Expression
import TemplateSyntax.Script.Moved
import TemplateSyntax.Script.Parser
import TemplateSyntax.Script.Scope
import TemplateSyntax.Source.OffsetMap

/-!
# Fragments of script text

The grammar of the script language reads whole scripts only.  A fragment is read by putting it
into a wrapping that makes it a script.  What comes out has byte indices of the wrapped text;
they are moved into the fragment and then to the host file, so that the wrapping never shows, and
all that is made of the syntax has host offsets.
-/

namespace TemplateSyntax

/-- An embedded text, the map from its byte indices to the host file, its language, and what reads
scripts. -/
structure Fragment where
  code : List Char
  map : OffsetMap
  lang : Script.Lang
  reader : Script.Reader := Script.parse
  deriving Inhabited

/-- Why a fragment could not be read, and the host offset of the fault. -/
structure ReadFailure where
  fault : ExpressionFault
  offset : Nat
  deriving DecidableEq, Repr, Inhabited

/-- What is put around a fragment. -/
structure Wrapping where
  before : List Char
  after : List Char
  deriving DecidableEq, Repr, Inhabited

namespace Wrapping

/-- The fragment as the argument of a call. -/
def expression : Wrapping := ⟨"0(".toList, "\n)".toList⟩

/-- The fragment as the elements of a pattern that a loop assigns to. -/
def aliases : Wrapping := ⟨"for(let [".toList, "] of 0);".toList⟩

/-- The fragment as the statements of a function of an event. -/
def statements : Wrapping := ⟨"void function($event)\x7b".toList, "\n\x7d".toList⟩

/-- The fragment as the parameters of a function. -/
def parameters : Wrapping := ⟨"void function(".toList, "\n) \x7b\x7d".toList⟩

/-- The wrapped text. -/
def wrap (w : Wrapping) (code : List Char) : List Char := w.before ++ code ++ w.after

end Wrapping

namespace Fragment

/-- The part of a fragment from a byte index on, by its characters. -/
def part (f : Fragment) (start : Nat) (code : List Char) : Fragment :=
  { f with code, map := f.map.shift start }

/-- The failure at a byte index of the fragment. -/
def failure (f : Fragment) (index : Nat) (fault : ExpressionFault) : ReadFailure :=
  ⟨fault, f.map.offset index⟩

/-- Whether there is nothing but blanks. -/
def isBlank (f : Fragment) : Bool := Text.isBlank f.code

/-- The number of bytes in front of the first character that is not blank. -/
def trimStart (f : Fragment) : Nat :=
  Text.byteLength f.code - Text.byteLength (Text.trimStart f.code)

/-- The number of bytes up to the last character that is not blank. -/
def trimStop (f : Fragment) : Nat := Text.byteLength (Text.trimEnd f.code)

/-- The host span without the blanks at both ends. -/
def trimmedSpan (f : Fragment) : Span := f.map.span f.trimStart f.trimStop

end Fragment

/-- A fragment in its wrapping. -/
structure Wrapped where
  fragment : Fragment
  wrapping : Wrapping
  deriving Inhabited

namespace Wrapped

variable (w : Wrapped)

/-- Where the fragment starts in the wrapped text. -/
def lo : Nat := Text.byteLength w.wrapping.before

/-- Where the fragment ends in the wrapped text. -/
def hi : Nat := w.lo + Text.byteLength w.fragment.code

/-- The host offset of an index of the wrapped text; what lies in the wrapping is taken for the
nearest end of the fragment. -/
def host (index : Nat) : Nat :=
  (w.fragment.map.shift (-(w.lo : Int))).offset (min (max index w.lo) w.hi)

/-- The statements of the wrapped text, with the host offsets of their places. -/
def parse : Except ReadFailure (List Script.Stmt) :=
  match w.fragment.reader w.fragment.lang (w.wrapping.wrap w.fragment.code) with
  | .ok body => .ok (Script.mapStmts w.host body)
  | .error index => .error ⟨.grammar, w.host index⟩

end Wrapped

namespace Script

/-- An expression by its kind and place. -/
def Expr.shape (e : Expr) : Shape ExprKind := ⟨e.kind, e.span⟩

/-- A statement by its kind and place. -/
def Stmt.shape (x : Stmt) : Shape StmtKind := ⟨x.kind, x.span⟩

/-- A pattern by its kind and place. -/
def Pat.shape? (p : Pat) : Option (Shape PatKind) := p.kind?.map fun kind => ⟨kind, p.span⟩

/-- The reference that a use of a name is to what is around the text. -/
def Use.reference (u : Use) : Reference := ⟨u.id.name, u.mode, u.id.span, none⟩

/-- The names that patterns bind, as variables. -/
def declaredVariables (kind : VariableKind) (pats : List Pat) : List Variable :=
  (boundByPats pats).map fun id => ⟨id.name, id.span, kind, #[]⟩

end Script

namespace Fragment

/-- The statements in the function that a wrapping makes, if the script is that function and
nothing else. -/
def wrappedFunction? : List Script.Stmt → Option Script.Func
  | [.expr _ (.unary _ true (.fn _ _ f))] => some f
  | _ => none

end Fragment

end TemplateSyntax
