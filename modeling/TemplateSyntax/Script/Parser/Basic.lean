import TemplateSyntax.Script.Lexeme
import TemplateSyntax.Script.Syntax

/-!
# Parsers of scripts

A parser works on a text with one token of look-ahead.  It fails at a byte index, and the state
it fails in is kept, since a few faults do not stop the reading: those are put on record, and the
first of them counts if nothing else is wrong.

The grammar is one of mutual recursion.  Each rule takes the others in a record `Grammar`, and the
rules are tied together at the end.
-/

namespace TemplateSyntax.Script

/-- What the rules depend on besides the text. -/
structure Mode where
  lang : Lang
  /-- Reserved words of strict code are reserved. -/
  isStrict : Bool := false
  inFunction : Bool := false
  inAsync : Bool := false
  inGenerator : Bool := false
  /-- Whether `in` is an operator. -/
  allowsIn : Bool := true
  /-- Whether the expression is the middle of a conditional. -/
  inConditional : Bool := false
  canBreak : Bool := false
  canContinue : Bool := false
  labels : List String := []
  /-- Whether `new.target` and `super` may stand here. -/
  hasOwnThis : Bool := false
  hasSuper : Bool := false
  deriving DecidableEq, Repr, Inhabited

namespace Mode

/-- Whether the language has types. -/
def isTyped (m : Mode) : Bool := m.lang == .typeScript

end Mode

/-- The state of a parser: the look-ahead token, the text from its start on and the text behind
it, the end of the token before, and the first fault on record. -/
structure ParseState where
  token : ScriptToken
  here : List Char
  rest : List Char
  lastStop : Nat
  mode : Mode
  /-- Where an arrow function may start. -/
  arrowStart : Option Nat := none
  recovered : Option Nat := none
  deriving Repr, Inhabited

/-- A parser fails at a byte index. -/
abbrev Parser (α : Type) := EStateM Nat ParseState α

instance {α : Type} : Inhabited (Parser α) := ⟨throw 0⟩

/-- The rules that others refer to. -/
structure Grammar where
  /-- An operand with its prefix operators. -/
  unary : Parser Expr
  /-- An operand with calls and members, but without operators. -/
  leftHand : Parser Expr
  assignment : Parser Expr
  expression : Parser Expr
  /-- A pattern of a binding. -/
  binding : Parser Pat
  /-- A statement or declaration. -/
  statement : Parser Stmt
  /-- A statement in a place where no declaration may stand. -/
  substatement : Parser Stmt
  /-- A type, as the expressions in it. -/
  typing : Parser (List Expr)

namespace Parser

/-! ## Looking at tokens -/

/-- The look-ahead token. -/
def token : Parser ScriptToken := return (← get).token

/-- What the look-ahead token is. -/
def lexeme : Parser Lexeme := return (← get).token.lexeme

/-- Where the look-ahead token starts. -/
def start : Parser Nat := return (← get).token.start

/-- Where the last token ends. -/
def lastStop : Parser Nat := return (← get).lastStop

/-- The range from an index to the end of the last token. -/
def spanFrom (start : Nat) : Parser Span := return ⟨start, (← get).lastStop⟩

/-- What the rules depend on. -/
def mode : Parser Mode := return (← get).mode

/-- Whether the language has types. -/
def isTyped : Parser Bool := return (← get).mode.isTyped

/-- Whether a line break is in front of the look-ahead token. -/
def afterBreak : Parser Bool := return (← get).token.afterBreak

/-- The token behind the look-ahead token. -/
def peek : Parser ScriptToken := do
  let s ← get
  return (Lexeme.read s.rest s.token.stop).token

/-- Whether the look-ahead token is this punctuator. -/
def isPunct (text : String) : Parser Bool := return (← lexeme) == .punct text

/-- Whether the look-ahead token is one of these punctuators. -/
def isPunctOf (texts : List String) : Parser Bool := do
  match ← lexeme with
  | .punct text => return texts.contains text
  | _ => return false

/-- Whether the look-ahead token is this word, written without escapes. -/
def isWord (name : String) : Parser Bool := return (← lexeme) == .word name false

/-- Whether the look-ahead token is one of these words. -/
def isWordOf (names : List String) : Parser Bool := do
  match ← lexeme with
  | .word name false => return names.contains name
  | _ => return false

/-- Whether the text is over. -/
def atEnd : Parser Bool := return (← lexeme) == .eof

/-! ## Failing -/

/-- Fails at the look-ahead token, or where that is no token. -/
def unexpected {α : Type} : Parser α := do
  match ← lexeme with
  | .bad index => throw index
  | _ => throw (← start)

/-- Puts a fault on record that does not stop the reading. -/
def recover (index : Nat) : Parser Unit :=
  modify fun s => { s with recovered := s.recovered <|> some index }

/-! ## Moving on -/

/-- Takes a token as the look-ahead. -/
def look (l : Lexed) : Parser Unit :=
  modify fun s => { s with
    token := l.token, here := l.here, rest := l.rest, recovered := s.recovered <|> l.fault }

/-- Moves on to the next token. -/
def advance : Parser Unit := do
  match ← lexeme with
  | .bad index => throw index
  | _ =>
    let s ← get
    set { s with lastStop := s.token.stop }
    look (Lexeme.read s.rest s.token.stop)

/-- Goes on reading behind a text that ends at `stop`. -/
def resume (rest : List Char) (stop : Nat) : Parser Unit := do
  modify fun s => { s with lastStop := stop }
  look (Lexeme.read rest stop)

/-- Takes this punctuator if it is there. -/
def eat (text : String) : Parser Bool := do
  if ← isPunct text then
    advance
    return true
  else return false

/-- Takes this punctuator, which must be there. -/
def expect (text : String) : Parser Unit := do
  if ← isPunct text then advance else unexpected

/-- Takes this word if it is there. -/
def eatWord (name : String) : Parser Bool := do
  if ← isWord name then
    advance
    return true
  else return false

/-- Takes this word, which must be there. -/
def expectWord (name : String) : Parser Unit := do
  if ← isWord name then advance else unexpected

/-- Whether a statement may end here without a semicolon. -/
def endsStatement : Parser Bool := do
  return (← isPunctOf [";", "\x7d"]) || (← atEnd) || (← afterBreak)

/-- Takes the end of a statement; a semicolon may be missing at the end of a line or block. -/
def semicolon : Parser Unit := do
  if ← eat ";" then return ()
  else if ← endsStatement then return ()
  else unexpected

/-- Takes a `>` from the front of the look-ahead token. -/
def expectGreater : Parser Unit := do
  let s ← get
  match s.token.lexeme with
  | .punct text =>
    if text.startsWith ">" then resume (s.here.drop 1) (s.token.start + 1) else unexpected
  | _ => unexpected

/-- Takes a `<` from the front of the look-ahead token. -/
def expectLess : Parser Unit := do
  let s ← get
  match s.token.lexeme with
  | .punct text =>
    if text == "<" || text == "<<" then resume (s.here.drop 1) (s.token.start + 1)
    else unexpected
  | _ => unexpected

/-- Whether the look-ahead token starts with `<` and may open a list of types. -/
def atLess : Parser Bool := isPunctOf ["<", "<<"]

/-! ## Combining -/

/-- Runs a parser in a changed mode. -/
def inMode {α : Type} (f : Mode → Mode) (p : Parser α) : Parser α := do
  let outer ← mode
  modify fun s => { s with mode := f outer }
  let a ← p
  modify fun s => { s with mode := outer }
  return a

/-- Runs a parser, and undoes all it did when it fails. -/
def attempt {α : Type} (p : Parser α) : Parser (Option α) := fun s =>
  match p s with
  | .ok a s => .ok (some a) s
  | .error _ _ => .ok none s

/-- Whether a parser succeeds here; nothing is taken. -/
def succeeds {α : Type} (p : Parser α) : Parser Bool := fun s =>
  match p s with
  | .ok _ _ => .ok true s
  | .error _ _ => .ok false s

/-- Runs a parser; when it fails, goes on from where it stopped. -/
def orElseFrom {α : Type} (p : Parser α) (handle : Nat → Parser α) : Parser α := fun s =>
  match p s with
  | .ok a s => .ok a s
  | .error index s' => handle index { s' with mode := s.mode }

/-- Runs a step that takes at least one token, as long as it gives something, at most `fuel`
times. -/
def manyUpTo {α : Type} (step : Parser (Option α)) : Nat → Parser (List α)
  | 0 => return []
  | fuel + 1 => do
    match ← step with
    | some a => return a :: (← manyUpTo step fuel)
    | none => return []

/-- Runs a step that takes at least one token, as long as it gives something. -/
def many {α : Type} (step : Parser (Option α)) : Parser (List α) := do
  manyUpTo step ((← get).rest.length + 2)

/-- Items with commas in between and maybe behind, up to a closing punctuator, which is taken. -/
def commaList {α : Type} (close : String) (item : Parser α) : Parser (List α) := do
  let items ← many do
    if ← isPunct close then return none
    let a ← item
    if !(← isPunct close) then expect ","
    return some a
  expect close
  return items

/-! ## Names -/

/-- Words that are never names. -/
def reservedWords : List String :=
  ["break", "case", "catch", "class", "const", "continue", "debugger", "default", "delete", "do",
   "else", "enum", "export", "extends", "false", "finally", "for", "function", "if", "import",
   "in", "instanceof", "new", "null", "return", "super", "switch", "this", "throw", "true", "try",
   "typeof", "var", "void", "while", "with"]

/-- Words that are no names in strict code. -/
def strictWords : List String :=
  ["implements", "interface", "let", "package", "private", "protected", "public", "static",
   "yield"]

/-- Whether a word is no name in a mode. -/
def isReserved (m : Mode) (name : String) : Bool :=
  reservedWords.contains name || (m.isStrict && strictWords.contains name) ||
    (m.inAsync && name == "await") || (m.inGenerator && name == "yield")

/-- The name that the look-ahead token is, if it may be one. -/
def nameHere? : Parser (Option String) := do
  match ← lexeme with
  | .word name _ => return if isReserved (← mode) name then none else some name
  | _ => return none

/-- Takes a name. -/
def name : Parser Ident := do
  match ← nameHere? with
  | some n =>
    let t ← token
    advance
    return ⟨n, ⟨t.start, t.stop⟩⟩
  | none => unexpected

/-- Takes a word, reserved or not. -/
def anyWord : Parser Ident := do
  match ← lexeme with
  | .word n _ =>
    let t ← token
    advance
    return ⟨n, ⟨t.start, t.stop⟩⟩
  | _ => unexpected

end Parser

/-- The state in front of a text. -/
def ParseState.ofChars (lang : Lang) (cs : List Char) : ParseState :=
  let l := Lexeme.read cs 0
  { token := l.token, here := l.here, rest := l.rest, lastStop := 0, mode := { lang },
    recovered := l.fault }

end TemplateSyntax.Script
