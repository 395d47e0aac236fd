import TemplateSyntax.Directive.Key
import TemplateSyntax.Embedded.Handler
import TemplateSyntax.Embedded.Iteration
import TemplateSyntax.Embedded.Parameters
import TemplateSyntax.Log
import TemplateSyntax.Tree.Basic

/-!
# Reading embedded texts

Once all gaps of a template are known, its embedded texts can be read: the names and values of
directives, and mustaches.  A text that cannot be read leaves its container without an
expression; what is wrong with it is an entry of the log, from which the diagnostic is made.
-/

namespace TemplateSyntax

/-- What the reading of embedded texts depends on. -/
structure Reading where
  /-- The text of the template. -/
  text : List Char
  locator : Locator
  map : OffsetMap
  lang : Script.Lang
  /-- Whether `|` in front of a name starts a filter. -/
  filters : Bool
  /-- What reads scripts. -/
  reader : Script.Reader := Script.parse
  deriving Inhabited

/-- The diagnostic that an entry of the log stands for, if it is one of a fault. -/
def LogEntry.diagnostic? (l : Locator) : LogEntry → Option Diagnostic
  | .keyFault offset fault => some (l.diagnose (.invalidDirective fault) offset)
  | .expressionFault offset fault => some (l.diagnose (.expression fault) offset)
  | _ => none

/-- A container with the variables that its text declares and what is wrong with it. -/
structure Contained where
  container : Container
  bindings : Array Variable
  faults : List LogEntry
  deriving Repr, Inhabited

/-- The container of a text that was read, or could not be read. -/
def Contained.ofResult (extent : Extent) : Except ReadFailure Embedded → Contained
  | .ok e => ⟨⟨e.expression, e.references, extent⟩, e.bindings, []⟩
  | .error f => ⟨⟨none, #[], extent⟩, #[], [.expressionFault f.offset f.fault]⟩

/-- A directive with the variables it declares and the entries it leaves in the log. -/
structure ReadDirective where
  directive : Directive
  bindings : Array Variable
  log : List LogEntry
  breaches : List Breach
  deriving Repr, Inhabited

namespace Reading

variable (r : Reading)

/-- The fragment of a text whose first character is at a host offset. -/
def fragment (code : List Char) (offset : Nat) : Fragment :=
  ⟨code, r.map.after offset, r.lang, r.reader⟩

/-! ## Keys -/

/-- The host range of a piece of a name that starts at `base`. -/
def pieceExtent (base : Nat) (p : KeyPiece) : Extent :=
  r.locator.extent ⟨base + p.start, base + p.stop⟩

/-- A piece of a name as an identifier of another name. -/
def named (base : Nat) (p : KeyPiece) (name : String) : Identifier :=
  ⟨name, String.ofList p.text, r.pieceExtent base p⟩

/-- A piece of a name as an identifier. -/
def identifier (base : Nat) (p : KeyPiece) : Identifier :=
  r.named base p (String.ofList p.text)

/-- The text between the brackets of a dynamic argument, as an expression. -/
def dynamicArgument (base : Nat) (p : KeyPiece) : Contained :=
  let code := (p.text.drop 1).dropLast
  .ofResult (r.pieceExtent base p)
    ((r.fragment code (base + p.start + 1)).readExpression false)

/-- An argument, and what is wrong with it. -/
def argument (base : Nat) : ArgumentPiece → DirectiveArgument × List LogEntry
  | .fixed p => (.fixed (r.identifier base p), [])
  | .dynamic p =>
    let c := r.dynamicArgument base p
    (.dynamic c.container, c.faults)

/-- The modifier that the sign of a directive is, if it is one. -/
def impliedModifier (base : Nat) (parts : KeyParts) : List Identifier :=
  if parts.impliesProp then [r.named base parts.written "prop"] else []

/-- The key of a directive, and what is wrong with it. -/
def key (id : Identifier) : DirectiveKey × List LogEntry :=
  let base := id.extent.span.start
  let parts := KeyParts.ofName id.rawName.toList
  let argument := parts.tail.argument.map (r.argument base)
  ({ name := r.named base parts.written parts.name
     argument := argument.map Prod.fst
     modifiers := r.impliedModifier base parts ++ parts.tail.modifiers.map (r.identifier base)
     extent := id.extent },
   (argument.map Prod.snd).getD [] ++
     parts.tail.faults.map fun (index, fault) => .keyFault (base + index) fault)

/-! ## Values -/

/-- Whether a quote stands at a host offset. -/
def isQuoted (offset : Nat) : Bool :=
  match Text.splitAtByte? (r.locator.relative offset) r.text with
  | some (_, c :: _) => c == '"' || c == '\''
  | _ => false

/-- The text of a value, without the quote in front of it. -/
def valueFragment (l : Literal) : Fragment :=
  let start := l.extent.span.start
  r.fragment l.value.toList (if r.isQuoted start then start + 1 else start)

/-- Reads the text of a value as its directive asks for. -/
def readValue (key : DirectiveKey) (f : Fragment) : Except ReadFailure Embedded :=
  match key.name.name with
  | "for" => f.readIteration
  | "slot" | "slot-scope" | "scope" => f.readParameters
  | "bind" => f.readExpression r.filters
  | "on" => if key.argument.isSome then f.readHandler else f.readExpression false
  | _ => f.readExpression false

/-- The value of a directive. -/
def value (key : DirectiveKey) (l : Literal) : Contained :=
  .ofResult l.extent (r.readValue key (r.valueFragment l))

/-- The attribute as a directive. -/
def directive (a : PlainAttribute) : ReadDirective :=
  let (key, faults) := r.key a.key
  let value := a.value.map (r.value key)
  { directive := ⟨key, value.map Contained.container, a.extent⟩
    bindings := (value.map Contained.bindings).getD #[]
    log := faults ++ [.converting a.key.rawName key.name.name] ++
      (value.map Contained.faults).getD []
    breaches := (KeyParts.ofName a.key.rawName.toList).tail.breaches }

/-- The text of a mustache that starts at a host offset. -/
def mustache (value : String) (start : Nat) (extent : Extent) : Contained :=
  .ofResult extent ((r.fragment value.toList start).readExpression r.filters)

end Reading

end TemplateSyntax
