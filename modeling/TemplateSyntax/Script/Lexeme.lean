import TemplateSyntax.Text.CharClass
import TemplateSyntax.Text.Word

/-!
# Lexemes of scripts

Reading one lexeme of a script from a list of characters.  What a slash, a backtick or a closing
brace starts depends on the syntax around it, so regular expressions and the parts of templates
are read by functions of their own, when the parser knows that there is one.
-/

namespace TemplateSyntax.Script

/-- What a lexeme is. -/
inductive Lexeme where
  | eof
  /-- A name or keyword; its letters may be written as escapes. -/
  | word (name : String) (escaped : Bool)
  | privateName (name : String)
  | number
  | bigint
  /-- A string, with its characters as written between the quotes. -/
  | string (raw : List Char)
  | regex
  /-- The backtick that opens a template. -/
  | template
  | punct (text : String)
  /-- No lexeme: what is wrong is at a byte index. -/
  | bad (index : Nat)
  deriving DecidableEq, Repr, Inhabited

/-- A lexeme with its byte range, and whether a line break is in front of it. -/
structure ScriptToken where
  lexeme : Lexeme
  start : Nat
  stop : Nat
  afterBreak : Bool
  deriving DecidableEq, Repr, Inhabited

/-- A token, the text from its start on, and the text behind it. -/
structure Lexed where
  token : ScriptToken
  here : List Char
  rest : List Char
  /-- What is wrong with a token that can be used all the same. -/
  fault : Option Nat := none
  deriving DecidableEq, Repr, Inhabited

namespace Lexeme

/-- The characters that end a line. -/
def isLineBreak (c : Char) : Bool :=
  c == '\n' || c == '\r' || c == '\u2028' || c == '\u2029'

/-- Blanks between lexemes, line breaks left out. -/
def isSpace (c : Char) : Bool :=
  c == ' ' || c == '\t' || c == '\x0b' || c == '\x0c' ||
    (0x80 ≤ c.toNat &&
      (c == '\xa0' || c == '\ufeff' || c == '\u1680' || ('\u2000' ≤ c && c ≤ '\u200a') ||
        c == '\u202f' || c == '\u205f' || c == '\u3000'))

/-- The text between two lexemes that was skipped: the text behind it, its index, whether a line
ended in it, and whether a comment was not closed. -/
structure Gap where
  rest : List Char
  index : Nat
  afterBreak : Bool
  unclosed : Bool := false
  deriving DecidableEq, Repr, Inhabited

/-- Skips to the end of a line. -/
def skipLine (index : Nat) : List Char → List Char × Nat
  | [] => ([], index)
  | c :: cs => if isLineBreak c then (c :: cs, index) else skipLine (index + c.utf8Size) cs

/-- Skips to the end of a comment, which may hold line breaks. -/
def skipComment (index : Nat) (afterBreak : Bool) : List Char → Gap
  | [] => ⟨[], index, afterBreak, true⟩
  | '*' :: '/' :: cs => ⟨cs, index + 2, afterBreak, false⟩
  | c :: cs => skipComment (index + c.utf8Size) (afterBreak || isLineBreak c) cs

/-- Skips blanks and comments.  Markup comments count as comments of a line, the closing one at
the start of a line only. -/
def skipGap : Nat → List Char → Nat → Bool → Gap
  | 0, cs, index, afterBreak => ⟨cs, index, afterBreak, false⟩
  | fuel + 1, cs, index, afterBreak =>
    match cs with
    | '/' :: '/' :: rest =>
      let (rest, index) := skipLine (index + 2) rest
      skipGap fuel rest index afterBreak
    | '/' :: '*' :: rest =>
      let gap := skipComment (index + 2) afterBreak rest
      if gap.unclosed then gap else skipGap fuel gap.rest gap.index gap.afterBreak
    | '<' :: '!' :: '-' :: '-' :: rest =>
      let (rest, index) := skipLine (index + 4) rest
      skipGap fuel rest index afterBreak
    | '-' :: '-' :: '>' :: rest =>
      if afterBreak then
        let (rest, index) := skipLine (index + 3) rest
        skipGap fuel rest index afterBreak
      else ⟨cs, index, afterBreak, false⟩
    | c :: rest =>
      if isLineBreak c then skipGap fuel rest (index + c.utf8Size) true
      else if isSpace c then skipGap fuel rest (index + c.utf8Size) afterBreak
      else ⟨cs, index, afterBreak, false⟩
    | [] => ⟨[], index, afterBreak, false⟩

/-- The value of hexadecimal digits. -/
def hexValue (cs : List Char) : Nat :=
  cs.foldl (fun n c => n * 16 + CharClass.digitValue c) 0

/-- The code point of an escape behind `\u`, and the number of characters that it takes. -/
def unicodeEscape? (cs : List Char) : Option (Nat × Nat) :=
  match cs with
  | '{' :: rest =>
    let digits := rest.takeWhile CharClass.isHexDigit
    let value := hexValue digits
    if digits.isEmpty || value > 0x10ffff then none
    else if (rest.drop digits.length).head? == some '}' then some (value, digits.length + 2)
    else none
  | _ =>
    let digits := (cs.take 4).takeWhile CharClass.isHexDigit
    if digits.length = 4 then some (hexValue digits, 4) else none

/-- The rest of a word. -/
structure WordEnd where
  name : String
  escaped : Bool
  rest : List Char
  stop : Nat
  /-- Where an escape is wrong. -/
  fault : Option Nat
  deriving DecidableEq, Repr, Inhabited

/-- Reads the rest of a word. -/
def wordEnd : Nat → String → Bool → List Char → Nat → WordEnd
  | 0, name, escaped, cs, index => ⟨name, escaped, cs, index, none⟩
  | fuel + 1, name, escaped, cs, index =>
    match cs with
    | '\\' :: 'u' :: rest =>
      match unicodeEscape? rest with
      | none => ⟨name, true, cs, index, some index⟩
      | some (value, n) =>
        let c := Char.ofNat value
        let allowed := if name.isEmpty then Unicode.isIdentifierStart c
          else Unicode.isIdentifierPart c
        if allowed then wordEnd fuel (name.push c) true (rest.drop n) (index + 2 + n)
        else ⟨name, true, cs, index, some index⟩
    | '\\' :: _ => ⟨name, true, cs, index, some index⟩
    | c :: rest =>
      if Unicode.isIdentifierPart c then
        wordEnd fuel (name.push c) escaped rest (index + c.utf8Size)
      else ⟨name, escaped, cs, index, none⟩
    | [] => ⟨name, escaped, [], index, none⟩

/-- The number of digits of a numeral, with single underscores in between. -/
def digitsLength (isDigit : Char → Bool) : List Char → Nat
  | c :: cs =>
    if isDigit c then 1 + digitsLength isDigit cs
    else
      match cs with
      | d :: _ => if c == '_' && isDigit d then 1 + digitsLength isDigit cs else 0
      | [] => 0
  | [] => 0

/-- The number of characters of an exponent. -/
def exponentLength (cs : List Char) : Nat :=
  match cs with
  | c :: rest =>
    if c == 'e' || c == 'E' then
      let sign := match rest with
        | d :: _ => if d == '+' || d == '-' then 1 else 0
        | [] => 0
      let digits := digitsLength Char.isDigit (rest.drop sign)
      if digits = 0 then 0 else 1 + sign + digits
    else 0
  | [] => 0

/-- The number of characters of a fraction with its exponent. -/
def fractionLength (cs : List Char) : Nat :=
  match cs with
  | '.' :: rest =>
    let digits := digitsLength Char.isDigit rest
    1 + digits + exponentLength (rest.drop digits)
  | _ => exponentLength cs

/-- The digits that a prefix of a numeral asks for. -/
def radixDigit? (c : Char) : Option (Char → Bool) :=
  if c == 'x' || c == 'X' then some CharClass.isHexDigit
  else if c == 'o' || c == 'O' then some fun d => '0' ≤ d && d ≤ '7'
  else if c == 'b' || c == 'B' then some fun d => d == '0' || d == '1'
  else none

/-- The number of characters of a numeral, and whether it is a big integer.  There is none when
digits are missing behind a prefix. -/
def numeralLength? (cs : List Char) : Option (Nat × Bool) :=
  let suffix (n : Nat) : Nat × Bool :=
    if (cs.drop n).head? == some 'n' then (n + 1, true) else (n, false)
  match cs with
  | '0' :: c :: rest =>
    match radixDigit? c with
    | some isDigit =>
      let digits := digitsLength isDigit rest
      if digits = 0 then none else some (suffix (2 + digits))
    | none =>
      if c.isDigit then
        let digits := 1 + digitsLength Char.isDigit (c :: rest)
        if (cs.take digits).all fun d => d ≤ '7' then some (digits, false)
        else some (digits + fractionLength (cs.drop digits), false)
      else
        let n := 1 + fractionLength (c :: rest)
        some (if n = 1 then suffix 1 else (n, false))
  | '.' :: _ => some (fractionLength cs, false)
  | _ =>
    let digits := digitsLength Char.isDigit cs
    let n := digits + fractionLength (cs.drop digits)
    some (if n = digits then suffix n else (n, false))

/-- The end of a string: the characters in it, the text behind it and its index; or the index of
what is wrong in it. -/
inductive StringEnd where
  | closed (raw rest : List Char) (stop : Nat)
  /-- The line ends before the string. -/
  | unclosed (raw rest : List Char) (stop : Nat)
  | fault (index : Nat)
  deriving DecidableEq, Repr, Inhabited

namespace StringEnd

/-- The end of a string with more characters in front of it. -/
def cons (front : List Char) : StringEnd → StringEnd
  | closed raw rest stop => closed (front ++ raw) rest stop
  | unclosed raw rest stop => unclosed (front ++ raw) rest stop
  | fault index => fault index

end StringEnd

/-- Whether an escape that starts behind a backslash is written as it must be. -/
def escapeIsValid (cs : List Char) : Bool :=
  match cs with
  | 'x' :: rest => ((rest.take 2).takeWhile CharClass.isHexDigit).length == 2
  | 'u' :: rest => (unicodeEscape? rest).isSome
  | _ => true

/-- Reads a string to its quote.  It may not go over the end of a line without a backslash. -/
def stringEnd (quote : Char) (index : Nat) : List Char → StringEnd
  | [] => .unclosed [] [] index
  | '\\' :: '\r' :: '\n' :: cs => (stringEnd quote (index + 3) cs).cons ['\\', '\r', '\n']
  | '\\' :: c :: cs =>
    if escapeIsValid (c :: cs) then
      (stringEnd quote (index + 1 + c.utf8Size) cs).cons ['\\', c]
    else .fault index
  | c :: cs =>
    if c == quote then .closed [] cs (index + 1)
    else if c == '\n' || c == '\r' then .unclosed [] (c :: cs) index
    else (stringEnd quote (index + c.utf8Size) cs).cons [c]

/-- The end of a part of a template. -/
inductive TemplateEnd where
  /-- The backtick that closes the template. -/
  | closed (rest : List Char) (stop : Nat)
  /-- The `$` and brace in front of an expression. -/
  | hole (rest : List Char) (stop : Nat)
  | unclosed
  deriving DecidableEq, Repr, Inhabited

/-- Reads a part of a template. -/
def templateEnd (index : Nat) : List Char → TemplateEnd
  | [] => .unclosed
  | '\\' :: c :: cs => templateEnd (index + 1 + c.utf8Size) cs
  | '$' :: '{' :: cs => .hole cs (index + 2)
  | c :: cs => if c == '\x60' then .closed cs (index + 1) else templateEnd (index + c.utf8Size) cs

/-- Where the first wrong escape of a part of a template is. -/
def templateFault? (index : Nat) : List Char → Option Nat
  | [] => none
  | '\\' :: c :: cs =>
    if escapeIsValid (c :: cs) && !(c.isDigit && !(c == '0' && !(cs.headD ' ').isDigit)) then
      templateFault? (index + 1 + c.utf8Size) cs
    else some index
  | '$' :: '{' :: _ => none
  | c :: cs => if c == '\x60' then none else templateFault? (index + c.utf8Size) cs

/-- The end of a regular expression: behind its last slash, or else where the line ends. -/
structure RegexEnd where
  closed : Bool
  rest : List Char
  stop : Nat
  deriving DecidableEq, Repr, Inhabited

/-- Reads the body of a regular expression behind its first slash. -/
def regexEnd (index : Nat) (inClass : Bool) : List Char → RegexEnd
  | [] => ⟨false, [], index⟩
  | '\\' :: c :: cs =>
    if isLineBreak c then ⟨false, c :: cs, index + 1⟩
    else regexEnd (index + 1 + c.utf8Size) inClass cs
  | c :: cs =>
    if isLineBreak c then ⟨false, c :: cs, index⟩
    else if c == '/' && !inClass then ⟨true, cs, index + 1⟩
    else regexEnd (index + c.utf8Size) (if c == '[' then true else c != ']' && inClass) cs

/-- All punctuators, longer ones before those that they start with. -/
def punctuators : List String :=
  [">>>=", "...", "===", "!==", "**=", "<<=", ">>=", ">>>", "&&=", "||=", "??=", "=>", "==", "!=",
   "<=", ">=", "&&", "||", "??", "++", "--", "+=", "-=", "*=", "/=", "%=", "&=", "|=", "^=", "<<",
   ">>", "**", "\x7b", "\x7d", "(", ")", "[", "]", ";", ",", "<", ">", "+", "-", "*", "/", "%", "&",
   "|", "^", "!", "~", "?", ":", "=", ".", "@", "#"]

/-- The punctuator that a text starts with. -/
def punctuator? (cs : List Char) : Option String :=
  match cs with
  | '?' :: '.' :: c :: _ => if c.isDigit then some "?" else some "?."
  | ['?', '.'] => some "?."
  | _ => punctuators.find? fun p => p.toList.isPrefixOf cs

/-- Reads a name that starts a text. -/
def readWord (cs : List Char) (start : Nat) (name : String) : WordEnd :=
  wordEnd (cs.length + 1) name false cs start

/-- Reads a lexeme that starts a text, which is not blank. -/
def readHere (cs : List Char) (start : Nat) (afterBreak : Bool) : Lexed :=
  let token (lexeme : Lexeme) (stop : Nat) (rest : List Char) : Lexed :=
    ⟨⟨lexeme, start, stop, afterBreak⟩, cs, rest, none⟩
  let one (lexeme : Lexeme) : Lexed :=
    token lexeme (start + ((cs.head?.map Char.utf8Size).getD 0)) (cs.drop 1)
  match cs with
  | [] => token .eof start []
  | c :: rest =>
    if Unicode.isIdentifierStart c || c == '\\' then
      let w := readWord cs start ""
      match w.fault with
      | some index => token (.bad index) w.stop w.rest
      | none => token (.word w.name w.escaped) w.stop w.rest
    else if c == '#' && (rest.head?.any fun d => Unicode.isIdentifierStart d || d == '\\') then
      let w := readWord rest (start + 1) ""
      match w.fault with
      | some index => token (.bad index) w.stop w.rest
      | none => token (.privateName w.name) w.stop w.rest
    else if c.isDigit || (c == '.' && rest.head?.any Char.isDigit) then
      match numeralLength? cs with
      | none => token (.bad (start + 2)) (start + 2) (cs.drop 2)
      | some (n, big) =>
        let behind := cs.drop n
        let sticks := behind.head?.any fun d =>
          Unicode.isIdentifierStart d || d.isDigit || d == '\\'
        if sticks then token (.bad (start + n)) (start + n) behind
        else token (if big then .bigint else .number) (start + n) behind
    else if c == '"' || c == '\'' then
      match stringEnd c (start + 1) rest with
      | .closed raw rest stop => token (.string raw) stop rest
      | .unclosed raw rest stop => { token (.string raw) stop rest with fault := some start }
      | .fault index => token (.bad index) (start + 1) rest
    else if c == '\x60' then one .template
    else
      match punctuator? cs with
      | some p => token (.punct p) (start + p.length) (cs.drop p.length)
      | none => one (.bad start)

/-- Reads the next lexeme.  An unclosed comment is wrong at the end of the text. -/
def read (cs : List Char) (index : Nat) : Lexed :=
  let gap := skipGap (cs.length + 1) cs index false
  if gap.unclosed then
    ⟨⟨.bad gap.index, gap.index, gap.index, gap.afterBreak⟩, gap.rest, gap.rest, none⟩
  else readHere gap.rest gap.index gap.afterBreak

end Lexeme

end TemplateSyntax.Script
