import TemplateSyntax.Text.Bytes

/-!
# A shallow scan of script text

Two marks of templates are unknown to the grammar of the script language: the `|` in front of a
filter, and the `in` or `of` behind the aliases of an iteration.  They are found by a scan that
knows strings, comments and regular expressions as single tokens, and brackets by their depth.
The tokens make up the whole text.
-/

namespace TemplateSyntax.Script

/-- What a token of the shallow scan is. -/
inductive ScanKind where
  | whitespace | lineComment | blockComment | string | template | regex | orOr | pipe
  | opening | closing | slash | word | number | other
  | rightParen
  deriving DecidableEq, Repr, Inhabited

namespace ScanKind

/-- Blanks and comments. -/
def isTrivia : ScanKind → Bool
  | whitespace | lineComment | blockComment => true
  | _ => false

/-- Closing brackets. -/
def closes : ScanKind → Bool
  | closing | rightParen => true
  | _ => false

/-- Whether a slash behind a token of this kind divides. -/
def endsOperand : ScanKind → Bool
  | word | number | string | template | regex | closing | rightParen => true
  | _ => false

end ScanKind

/-- A token of the shallow scan. -/
structure ScanToken where
  kind : ScanKind
  text : List Char
  deriving DecidableEq, Repr, Inhabited

namespace Scan

/-- Blanks of the shallow scan. -/
def isBlank (c : Char) : Bool :=
  c == ' ' || c == '\t' || c == '\r' || c == '\n' || c == '\x0c'

/-- The first characters of words. -/
def isWordStart (c : Char) : Bool := c.isAlpha || c == '_' || c == '$'

/-- The characters of words. -/
def isWordPart (c : Char) : Bool := c.isAlphanum || c == '_' || c == '$'

/-- The characters of numbers behind the first digit. -/
def isNumberPart (c : Char) : Bool := c.isAlphanum || c == '_' || c == '.'

/-- The number of characters up to the quote that closes a string on its line, the quote
included, or the number of those in front of the line break that stops it. -/
def stringEnd (quote : Char) : List Char → Nat × Bool
  | [] => (0, false)
  | '\\' :: c :: cs =>
    if c == '\n' then (1, false)
    else
      let (n, closed) := stringEnd quote cs
      (n + 2, closed)
  | c :: cs =>
    if c == quote then (1, true)
    else if c == '\n' then (0, false)
    else
      let (n, closed) := stringEnd quote cs
      (n + 1, closed)

/-- The number of characters up to the backtick that closes a template, the backtick included,
or of all characters. -/
def templateEnd : List Char → Nat × Bool
  | [] => (0, false)
  | '\\' :: _ :: cs =>
    let (n, closed) := templateEnd cs
    (n + 2, closed)
  | c :: cs =>
    if c == '\x60' then (1, true)
    else
      let (n, closed) := templateEnd cs
      (n + 1, closed)

/-- The number of characters up to the end of a comment, if it is closed. -/
def commentEnd? : List Char → Option Nat
  | '*' :: '/' :: _ => some 2
  | _ :: cs => (commentEnd? cs).map (· + 1)
  | [] => none

/-- The number of characters of a regular expression behind its first slash, flags included, if
it is closed on its line.  A slash in a class does not close it. -/
def regexEnd? (inClass : Bool) : List Char → Option Nat
  | [] => none
  | '\\' :: _ :: cs => (regexEnd? inClass cs).map (· + 2)
  | c :: cs =>
    if c == '[' then (regexEnd? true cs).map (· + 1)
    else if c == ']' then (regexEnd? false cs).map (· + 1)
    else if c == '/' && !inClass then some (1 + (cs.takeWhile Char.isAlpha).length)
    else if c == '\n' then none
    else (regexEnd? inClass cs).map (· + 1)

/-- The kind of the token that starts with `c`, and the number of characters behind `c` that
belong to it.  `operand` tells whether the last token before it ends an operand. -/
def token (operand : Bool) (c : Char) (cs : List Char) : ScanKind × Nat :=
  if isBlank c then (.whitespace, (cs.takeWhile isBlank).length)
  else if isWordStart c then (.word, (cs.takeWhile isWordPart).length)
  else if c.isDigit then (.number, (cs.takeWhile isNumberPart).length)
  else if c == '"' || c == '\'' then
    let (n, closed) := stringEnd c cs
    (if closed then .string else .other, n)
  else if c == '\x60' then
    let (n, closed) := templateEnd cs
    (if closed then .template else .other, n)
  else if c == '|' then
    if cs.head? == some '|' then (.orOr, 1) else (.pipe, 0)
  else if c == '(' || c == '[' || c == '{' then (.opening, 0)
  else if c == ')' then (.rightParen, 0)
  else if c == ']' || c == '}' then (.closing, 0)
  else if c == '/' then
    if cs.head? == some '/' then (.lineComment, (cs.takeWhile (· != '\n')).length)
    else
      match if cs.head? == some '*' then commentEnd? (cs.drop 1) else none with
      | some n => (.blockComment, n + 1)
      | none =>
        match if operand then none else regexEnd? false cs with
        | some n => (.regex, n)
        | none => (.slash, 0)
  else (.other, 0)

/-- The tokens of a text. -/
def tokensFrom (operand : Bool) : List Char → List ScanToken
  | [] => []
  | c :: cs =>
    let (kind, n) := token operand c cs
    ⟨kind, c :: cs.take n⟩ ::
      tokensFrom (if kind.isTrivia then operand else kind.endsOperand) (cs.drop n)
termination_by cs => cs.length

/-- All tokens of a text. -/
def tokens (code : List Char) : List ScanToken := tokensFrom false code

/-- The tokens make up the text. -/
theorem flatten_tokensFrom (operand : Bool) (cs : List Char) :
    ((tokensFrom operand cs).map ScanToken.text).flatten = cs := by
  fun_induction tokensFrom operand cs with
  | case1 => rfl
  | case2 operand c cs kind n _ ih =>
    simp only [dite_eq_ite] at ih
    simp [ih]

/-- The depth of brackets behind a token.  A closing bracket that nothing opened counts not. -/
def depthAfter (depth : Nat) (kind : ScanKind) : Nat :=
  if kind == .opening then depth + 1 else if kind.closes then depth - 1 else depth

/-- A part of a text: its byte index and its characters. -/
structure Part where
  start : Nat
  code : List Char
  deriving DecidableEq, Repr, Inhabited

/-- Cuts at each `|` outside of brackets.  The part that is being read has its characters in
reverse. -/
def splitAt (depth : Nat) (start : Nat) (seen : List Char) : List ScanToken → List Part
  | [] => [⟨start, seen.reverse⟩]
  | t :: ts =>
    if t.kind == .pipe && depth == 0 then
      ⟨start, seen.reverse⟩ :: splitAt 0 (start + Text.byteLength seen + 1) [] ts
    else splitAt (depthAfter depth t.kind) start (t.text.reverse ++ seen) ts

/-- The expression in front of the first filter, and the filters. -/
def splitFilters (code : List Char) : List Part := splitAt 0 0 [] (tokens code)

/-- A text in two parts around a separator. -/
structure Halves where
  left : List Char
  right : Part
  deriving DecidableEq, Repr, Inhabited

/-- Whether a word parts aliases from what they iterate over. -/
def isSeparator (text : List Char) : Bool := text == ['i', 'n'] || text == ['o', 'f']

/-- Cuts at the first `in` or `of` outside of brackets that follows a blank or a closing
parenthesis.  `seen` has the characters so far in reverse. -/
def halvesAt (depth : Nat) (prev : Option ScanKind) (seen : List Char) :
    List ScanToken → Option Halves
  | [] => none
  | t :: ts =>
    if t.kind == .word && depth == 0 && isSeparator t.text &&
        (prev == some .whitespace || prev == some .rightParen) then
      some ⟨seen.reverse,
        ⟨Text.byteLength seen + 2, (ts.map ScanToken.text).flatten⟩⟩
    else halvesAt (depthAfter depth t.kind) (some t.kind) (t.text.reverse ++ seen) ts

/-- The aliases and the iterable of an iteration. -/
def splitIteration (code : List Char) : Option Halves := halvesAt 0 none [] (tokens code)

end Scan

end TemplateSyntax.Script
