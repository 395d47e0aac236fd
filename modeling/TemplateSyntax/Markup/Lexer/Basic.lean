import TemplateSyntax.Log
import TemplateSyntax.Markup.Lexer.Cursor
import TemplateSyntax.Markup.Lexer.TokenBuffer
import TemplateSyntax.Markup.Namespace

/-!
# The lexer of markup

The state of the lexer and the operations that its steps are made of: moving to another state,
building tokens, and recording gaps and diagnostics.  Each operation changes a few fields, so
that a step is read off from the fields it leaves alone.
-/

namespace TemplateSyntax

/-- The lexer between two steps. -/
structure Lexer where
  locator : Locator
  cursor : Cursor
  state : LexState := .data
  /-- Where to go on after a character reference. -/
  returnState : LexState := .data
  /-- Where to go on after an interpolation. -/
  outerState : LexState := .data
  /-- The next step works on the current character again. -/
  again : Bool := false
  finished : Bool := false
  buffer : TokenBuffer := {}
  /-- The index where a construct of several characters starts. -/
  mark : Nat := 0
  refStart : Nat := 0
  /-- The text from the start of the character reference on. -/
  refText : List Char := []
  interpolationStart : Nat := 0
  charCode : Nat := 0
  endTagName : String := ""
  /-- Whether double braces open an interpolation. -/
  interpolating : Bool := true
  ns : Namespace := .html
  /-- Host offsets of bytes that have no counterpart in a value. -/
  gaps : Array Nat := #[]
  diagnostics : Array Diagnostic := #[]
  breaches : List Breach := []
  /-- Whether the moves between states are logged. -/
  tracing : Bool := false
  log : Array LogEntry := #[]
  deriving Repr, Inhabited

/-- The kind of character data in a state. -/
def LexState.textKind : LexState → TokenKind
  | .rcdata => .rcdataText
  | .rawText => .rawText
  | _ => .text

namespace Lexer

/-- The lexer in front of a text. -/
def ofChars (cs : List Char) (locator : Locator) (tracing : Bool) : Lexer :=
  { locator, cursor := Cursor.ofChars cs, tracing }

variable (l : Lexer)

/-- Goes on with the next character in another state. -/
def goto (s : LexState) : Lexer := { l with state := s }

/-- Goes on with the current character in another state. -/
def reconsume (s : LexState) : Lexer := { l with state := s, again := true }

/-- Stands at a template index as the start of a construct of several characters. -/
def markHere : Lexer := { l with mark := l.cursor.start }

/-- Records a diagnostic at a template index. -/
def reportAt (cause : Cause) (index : Nat) : Lexer :=
  { l with
    diagnostics := l.diagnostics.push (l.locator.diagnose cause (l.locator.host index))
    breaches := Breach.expect (index ≤ l.locator.index.size) .indexOutsideText ++ l.breaches }

/-- Records a diagnostic at the current character. -/
def report (cause : Cause) : Lexer := l.reportAt cause l.cursor.start

/-- Records gaps at `count` template indices from `index` on. -/
def addGaps (index count : Nat) : Lexer :=
  { l with
    gaps := l.gaps ++ (List.range' index count).map l.locator.host
    breaches :=
      Breach.expect (index + count ≤ l.locator.index.size) .indexOutsideText ++ l.breaches }

/-! ## Tokens -/

/-- Starts a token at a template index, where the one before it ends. -/
def startTokenAt (kind : TokenKind) (start : Nat) : Lexer :=
  { l with buffer := l.buffer.startAt l.locator kind start }

/-- Starts a token at the current character. -/
def startToken (kind : TokenKind) : Lexer := l.startTokenAt kind l.cursor.start

/-- Ends the token after the current character. -/
def endToken : Lexer := { l with buffer := l.buffer.finish l.locator l.cursor.index }

/-- Appends to the token that is being built. -/
def push (s : String) : Lexer := { l with buffer := l.buffer.push s }

/-- Appends a character to the token that is being built. -/
def pushChar (c : Char) : Lexer := l.push (String.singleton c)

/-- Appends text to a token of this kind. -/
def append (kind : TokenKind) (s : String) (start : Nat) : Lexer :=
  { l with buffer := l.buffer.append l.locator kind s start }

/-- Appends a character of the content; blanks make up tokens of their own. -/
def appendData (kind : TokenKind) (c : Char) : Lexer :=
  l.append (if CharClass.isBlank c then .whitespace else kind) (String.singleton c)
    l.cursor.start

/-- Appends a blank between the parts of a tag. -/
def appendBlank (c : Char) : Lexer :=
  l.append .whitespace (String.singleton c) l.cursor.start

/-- A token of the current character alone. -/
def oneCharToken (kind : TokenKind) : Lexer := (l.startToken kind).endToken

/-- The current blank starts the token between two parts of a tag. -/
def startBlank (c : Char) : Lexer := (l.startToken .whitespace).pushChar c

/-- Holds the text back in front of a possible end tag. -/
def holdBack : Lexer := { l with endTagName := "", buffer := l.buffer.hold }

/-- Puts the text that was held back in place again, with the `</` and name after it. -/
def restoreHeldBack (s : LexState) : Lexer :=
  { l with
    buffer := l.buffer.restore.append l.locator s.textKind ("</" ++ l.endTagName) l.mark }

/-- Hands the text that was held back over and starts an end tag. -/
def promoteHeldBack : Lexer :=
  { l with
    endTagName := ""
    buffer := ((l.buffer.commitHeldBack l.locator l.mark).startAt l.locator .endTagOpen
      l.mark).push l.endTagName }

/-- Whether the name of the end tag is that of the last start tag. -/
def isAppropriateEndTag : Bool :=
  l.buffer.lastStartTagName != "" &&
    Text.sameLetters l.endTagName l.buffer.lastStartTagName

/-! ## Character references -/

/-- Appends what a character reference stands for. -/
def flushReference (s : String) : Lexer :=
  { l with
    buffer :=
      if l.returnState.isAttributeValue then l.buffer.push s
      else l.buffer.append l.locator l.returnState.textKind s l.refStart }

/-- The raw text of a character reference that ends at a template index.  References are ASCII,
so that a character is a byte. -/
def rawReference (stop : Nat) : List Char := l.refText.take (stop - l.refStart)

/-- Checks that a reference that ends at a template index is a piece of the text. -/
def checkReference (stop : Nat) : Lexer :=
  { l with
    breaches := Breach.expect (l.refStart ≤ stop) .overflow ++
      Breach.expect (Text.byteLength (l.rawReference stop) = stop - l.refStart)
        .cutInsideCharacter ++ l.breaches }

/-- Appends the raw text of a reference that ends at a template index. -/
def flushRaw (stop : Nat) : Lexer :=
  (l.checkReference stop).flushReference (String.ofList (l.rawReference stop))

/-- Appends the decoded text of a reference; the raw bytes that it is shorter by are gaps at the
end.  A reference that is shorter than its decoded text stays as it is. -/
def flushDecoded (decoded : String) (stop : Nat) : Lexer :=
  let size := decoded.utf8ByteSize
  if size ≤ stop - l.refStart then
    ((l.checkReference stop).flushReference decoded).addGaps (l.refStart + size)
      (stop - (l.refStart + size))
  else l.flushRaw stop

/-- The current character starts a reference, after which `s` goes on. -/
def startReference (s : LexState) : Lexer :=
  { l with
    returnState := s
    refStart := l.cursor.start
    refText := l.cursor.here
    state := .characterReference }

/-- The current brace may start an interpolation, after which `s` goes on. -/
def startInterpolation (s : LexState) : Lexer :=
  { l with outerState := s, mark := l.cursor.start, state := .interpolationStart }

/-! ## Input -/

/-- Goes on reading `n` one-byte characters after the start of the current one. -/
def skip (n : Nat) : Lexer :=
  { l with
    cursor := l.cursor.skip n
    breaches :=
      Breach.expect (Text.byteLength (l.cursor.here.take n) = n) .cutInsideCharacter ++
        l.breaches }

/-- Moves on to the next character, and records the line feed that is dropped. -/
def moveOn : Lexer :=
  let l' := { l with cursor := l.cursor.advance }
  match l.cursor.droppedLineFeed? with
  | some index => l'.addGaps index 1
  | none => l'

/-- Moves on to the next character, and records what is wrong there. -/
def advance : Lexer :=
  let l := l.moveOn
  match l.cursor.char.bind Cursor.inputFault? with
  | some cause => l.report cause
  | none => l

/-- Logs that the lexer goes to a state, if it is another one. -/
def traceTo (s : LexState) : Lexer :=
  if l.tracing && s != l.state then
    { l with log := l.log.push (.transition l.state s l.cursor.start) }
  else l

/-- Puts the lexer into a state from outside. -/
def enter (s : LexState) : Lexer := { l.traceTo s with state := s }

end Lexer

end TemplateSyntax
