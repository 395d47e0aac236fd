import TemplateSyntax.Embedded.Plain

/-!
# Event handlers

The value of `v-on` with an argument.  A function or the path to one is an expression; all else
is a list of statements, for which the event has a name.
-/

namespace TemplateSyntax

namespace Handler

/-- The characters of names. -/
def isNamePart (c : Char) : Bool := Unicode.isWord c || c == '$'

/-- The first characters of names in paths. -/
def isNameStart (c : Char) : Bool := c.isAlpha || c == '_' || c == '$'

/-- Whether an arrow comes next, maybe behind blanks. -/
def startsWithArrow (cs : List Char) : Bool :=
  ['=', '>'].isPrefixOf (Text.trimStart cs)

/-- What follows a name, or parentheses up to the first that closes. -/
def afterParameters? : List Char → Option (List Char)
  | '(' :: cs =>
    match cs.dropWhile (· != ')') with
    | _ :: rest => some rest
    | [] => none
  | cs =>
    if (cs.takeWhile isNamePart).isEmpty then none else some (cs.dropWhile isNamePart)

/-- Whether the text starts like an arrow function. -/
def isArrowFunction (cs : List Char) : Bool :=
  match afterParameters? (Text.trimStart cs) with
  | some rest => startsWithArrow rest
  | none => false

/-- Whether the text starts like a function. -/
def isPlainFunction (cs : List Char) : Bool :=
  let word := "function".toList
  word.isPrefixOf cs && (Text.trimStart (cs.drop word.length)).head? == some '('

/-- A name, and what follows it. -/
def afterName? : List Char → Option (List Char)
  | c :: cs => if isNameStart c then some (cs.dropWhile isNamePart) else none
  | [] => none

/-- What follows the closing bracket that comes next. -/
def afterBracket? : List Char → Option (List Char)
  | ']' :: cs => some cs
  | _ => none

/-- What follows a quoted text and a closing bracket. -/
def afterQuoted? (quote : Char) (cs : List Char) : Option (List Char) :=
  match cs.dropWhile (· != quote) with
  | _ :: rest => afterBracket? rest
  | [] => none

/-- One step of a path: a name behind a dot, or a text, number or name in brackets.  Gives what
follows it. -/
def afterStep? : List Char → Option (List Char)
  | '.' :: cs => afterName? cs
  | '[' :: cs =>
    match cs with
    | '\'' :: rest => afterQuoted? '\'' rest
    | '"' :: rest => afterQuoted? '"' rest
    | _ =>
      if (cs.takeWhile Unicode.isDecimalDigit).isEmpty then (afterName? cs).bind afterBracket?
      else afterBracket? (cs.dropWhile Unicode.isDecimalDigit)
  | _ => none

/-- Whether the text is made of steps of a path, at most `fuel` of them. -/
def isSteps : Nat → List Char → Bool
  | _, [] => true
  | 0, _ => false
  | fuel + 1, cs =>
    match afterStep? cs with
    | some rest => isSteps fuel rest
    | none => false

/-- Whether the text is a name with steps of a path behind it. -/
def isPath (cs : List Char) : Bool :=
  match afterName? cs with
  | some rest => isSteps rest.length rest
  | none => false

end Handler

namespace Fragment

/-- The name of the event in the statements of a handler. -/
def eventName : String := "$event"

/-- The text as the statements of a handler. -/
def readStatements (f : Fragment) : Except ReadFailure Embedded := do
  let script ← Wrapped.parse ⟨f, .statements⟩
  match wrappedFunction? script with
  | some (.mk _ body) =>
    let uses := Script.bodyReferences [eventName] body
    return {
      expression := some (.handler (body.map Script.Stmt.shape) f.trimmedSpan)
      references := (uses.map Script.Use.reference).toArray }
  | none => throw (f.failure 0 .unexpectedToken)

/-- The text as a handler of an event. -/
def readHandler (f : Fragment) : Except ReadFailure Embedded := do
  if f.isBlank then return {}
  let trimmed := Text.trim f.code
  if Handler.isArrowFunction trimmed || Handler.isPlainFunction trimmed ||
      Handler.isPath trimmed then
    f.readPlain
  else f.readStatements

end Fragment

end TemplateSyntax
