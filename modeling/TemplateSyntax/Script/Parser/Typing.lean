import TemplateSyntax.Script.Parser.Pattern

/-!
# Types

Types are read for their extent only, and for the expressions in them: the keys of the members of
a type are expressions to whoever looks for names.
-/

namespace TemplateSyntax.Script

namespace Parser

variable (g : Grammar)

/-- One parameter of a type. -/
def typeParameter : Parser (List Expr) := do
  let _ ← many (α := Unit) do
    if ← isWordOf ["const", "in", "out"] then
      match (← peek).lexeme with
      | .word _ _ => advance; return some ()
      | _ => return none
    else return none
  let _ ← name
  let bound ← if ← eatWord "extends" then g.typing else pure []
  let fallback ← if ← eat "=" then g.typing else pure []
  return bound ++ fallback

/-- Items between angle brackets with commas in between and maybe behind. -/
def angleList (item : Parser (List Expr)) : Parser (List Expr) := do
  expectLess
  let atClose : Parser Bool := do
    match ← lexeme with
    | .punct text => return text.startsWith ">"
    | _ => return false
  let items ← many do
    if ← atClose then return none
    let a ← item
    if !(← atClose) then expect ","
    return some a
  expectGreater
  return items.flatten

/-- The parameters of a type, if there are any. -/
def typeParameters? : Parser (List Expr) := do
  if (← isTyped) && (← isPunct "<") then angleList (typeParameter g) else return []

/-- Types as arguments of a type or function. -/
def typeArguments : Parser (List Expr) := angleList g.typing

/-- The type of the result of a function, which may be a claim on a parameter. -/
def resultType : Parser (List Expr) := do
  let isClaim (t : ScriptToken) : Bool := match t.lexeme with
    | .word n _ => n == "is" && !t.afterBreak
    | _ => false
  match ← lexeme with
  | .word "asserts" false =>
    let next ← peek
    match next.lexeme with
    | .word n _ =>
      if next.afterBreak || n == "is" then g.typing
      else
        advance
        let _ ← anyWord
        if ← eatWord "is" then g.typing else return []
    | _ => g.typing
  | .word _ _ =>
    if isClaim (← peek) then
      advance
      advance
      g.typing
    else g.typing
  | _ => g.typing

/-- The type of the result behind a colon, if there is one. -/
def resultType? : Parser (List Expr) := do
  if (← isTyped) && (← isPunct ":") then
    advance
    resultType g
  else return []

/-- The parameters and the result of a function in a type. -/
def signature (arrow : String) : Parser (List Expr) := do
  let bounds ← typeParameters? g
  expect "("
  let (_, types) ← parameters g
  let result ← if arrow == ":" then resultType? g
    else do
      expect arrow
      resultType g
  return bounds ++ types ++ result

/-- The end of a member of a type. -/
def memberEnd : Parser Unit := do
  if ← eat "," then return () else semicolon

/-- The key of a member of a type, as an expression. -/
def memberKey : Parser (List Expr) := do
  match ← propertyKey g with
  | (.computed e, _) => return [e]
  | (.fixed _, some id) => return [.ident id]
  | (.fixed _, none) => return []

/-- What may follow the key of a member. -/
def endsKey (t : ScriptToken) : Bool :=
  match t.lexeme with
  | .punct p => ["(", "<", "?", ":", ",", ";", "\x7d"].contains p
  | .eof => true
  | _ => false

/-- Takes a modifier in front of a key; a word that is a key itself is none. -/
def eatModifier (names : List String) : Parser Bool := do
  if ← isWordOf names then
    let next ← peek
    if endsKey next || next.afterBreak then return false
    advance
    return true
  else return false

/-- Whether the look-ahead bracket opens an index signature. -/
def atIndexSignature : Parser Bool := do
  if !(← isPunct "[") then return false
  succeeds do
    advance
    let _ ← name
    if !(← isPunct ":") then unexpected

/-- An index signature behind its modifiers. -/
def indexSignature : Parser (List Expr) := do
  expect "["
  let _ ← name
  expect ":"
  let keyType ← g.typing
  expect "]"
  let valueType := (← typeAnnotation? g).getD []
  memberEnd
  return keyType ++ valueType

/-- A member of a type. -/
def typeMember : Parser (List Expr) := do
  if (← isPunctOf ["(", "<"]) then
    let types ← signature g ":"
    memberEnd
    return types
  if (← isWord "new") && (match (← peek).lexeme with
      | .punct "(" | .punct "<" => true
      | _ => false) then
    advance
    let types ← signature g ":"
    memberEnd
    return types
  let _ ← eatModifier ["readonly"]
  if ← atIndexSignature then return ← indexSignature g
  let _ ← eatModifier ["get", "set"]
  let key ← memberKey g
  let _ ← eat "?"
  let types ← if ← isPunctOf ["(", "<"] then signature g ":"
    else pure ((← typeAnnotation? g).getD [])
  memberEnd
  return key ++ types

/-- Members of a type between braces. -/
def typeMembers : Parser (List Expr) := do
  expect "\x7b"
  let members ← many do
    if ← isPunct "\x7d" then return none
    return some (← typeMember g)
  expect "\x7d"
  return members.flatten

/-- Takes a sign in front of a modifier of a mapped type. -/
def mappedModifier (p : Parser Bool) : Parser Unit := do
  if ← isPunctOf ["+", "-"] then advance
  let _ ← p

/-- A type with a member for each key of another type. -/
def mappedType : Parser (List Expr) := do
  expect "\x7b"
  mappedModifier (eatWord "readonly")
  expect "["
  let _ ← name
  expectWord "in"
  let keys ← g.typing
  let names ← if ← eatWord "as" then g.typing else pure []
  expect "]"
  mappedModifier (eat "?")
  let value := (← typeAnnotation? g).getD []
  let _ ← eat ";"
  expect "\x7d"
  return keys ++ names ++ value

/-- Whether the look-ahead brace opens a mapped type. -/
def atMappedType : Parser Bool :=
  succeeds do
    expect "\x7b"
    mappedModifier (eatWord "readonly")
    expect "["
    let _ ← name
    expectWord "in"

/-- An element of a tuple, which may have a label. -/
def tupleElement : Parser (List Expr) := do
  let _ ← eat "..."
  let labelled ← succeeds do
    let _ ← anyWord
    let _ ← eat "?"
    if !(← isPunct ":") then unexpected
  if labelled then
    let _ ← anyWord
    let _ ← eat "?"
    expect ":"
  let types ← g.typing
  let _ ← eat "?"
  return types

/-- Names behind dots. -/
def dottedNames : Parser Unit := do
  let _ ← many (α := Unit) do
    if ← isPunct "." then
      advance
      let _ ← anyWord
      return some ()
    else return none
  return ()

/-- Types as arguments, if they follow on the same line. -/
def typeArguments? : Parser (List Expr) := do
  if (← atLess) && !(← afterBreak) then typeArguments g else return []

/-- The parts of a template type behind its backtick, the expressions of which are types. -/
def templateTypeParts (item : Parser (List Expr)) (start : Nat) :
    Nat → List Char → Nat → Parser (List Expr)
  | 0, _, _ => throw start
  | fuel + 1, cs, index =>
    match Lexeme.templateEnd index cs with
    | .unclosed => throw start
    | .closed rest stop => do
      resume rest stop
      return []
    | .hole rest stop => do
      resume rest stop
      let types ← item
      if !(← isPunct "\x7d") then unexpected
      let s ← get
      return types ++ (← templateTypeParts item start fuel s.rest s.token.stop)

/-- A template as a type. -/
def templateType : Parser (List Expr) := do
  let s ← get
  templateTypeParts g.typing s.token.start (s.rest.length + 2) s.rest s.token.stop

/-- Reserved words that are types. -/
def typeWords : List String := ["void", "null", "true", "false", "this"]

/-- A type without operators. -/
def primaryType : Parser (List Expr) := do
  match ← lexeme with
  | .word "typeof" false =>
    advance
    if ← isWord "import" then return ← g.typing
    let _ ← anyWord
    dottedNames
    typeArguments? g
  | .word "import" false =>
    advance
    expect "("
    let inner ← g.typing
    expect ")"
    dottedNames
    return inner ++ (← typeArguments? g)
  | .word n _ =>
    if reservedWords.contains n && !typeWords.contains n then unexpected
    advance
    dottedNames
    typeArguments? g
  | .string _ | .number | .bigint => advance; return []
  | .punct "-" =>
    advance
    match ← lexeme with
    | .number | .bigint => advance; return []
    | _ => unexpected
  | .template => templateType g
  | .punct "\x7b" => if ← atMappedType then mappedType g else typeMembers g
  | .punct "[" =>
    advance
    return (← commaList "]" (tupleElement g)).flatten
  | .punct "(" =>
    advance
    let inner ← g.typing
    expect ")"
    return inner
  | _ => unexpected

/-- Whether a token may start an operand of a type operator. -/
def startsTypeOperand (t : ScriptToken) : Bool :=
  match t.lexeme with
  | .word n _ => !(["extends", "is", "as", "in"].contains n)
  | .string _ | .number | .bigint | .template => true
  | .punct p => ["\x7b", "(", "["].contains p
  | _ => false

/-- A type with its operators. -/
def operatorType : Parser (List Expr) := do
  let _ ← many (α := Unit) do
    if (← isWordOf ["keyof", "unique", "readonly", "infer"]) &&
        startsTypeOperand (← peek) then
      advance
      return some ()
    else return none
  let base ← primaryType g
  let indices ← many do
    if (← isPunct "[") && !(← afterBreak) then
      advance
      if ← eat "]" then return some []
      let index ← g.typing
      expect "]"
      return some index
    else return none
  return base ++ indices.flatten

/-- Types with an operator in between and maybe in front. -/
def typeOperands (op : String) (item : Parser (List Expr)) : Parser (List Expr) := do
  let _ ← eat op
  let first ← item
  let more ← many do
    if ← eat op then return some (← item) else return none
  return first ++ more.flatten

/-- A type without a condition. -/
def unionType : Parser (List Expr) := typeOperands "|" (typeOperands "&" (operatorType g))

/-- Whether the look-ahead starts the type of a function. -/
def atFunctionType : Parser Bool := do
  if ← isPunct "<" then return true
  if !(← isPunct "(") then return false
  succeeds do
    expect "("
    let _ ← parameters g
    if !(← isPunct "=>") then unexpected

/-- A type. -/
def anyType : Parser (List Expr) := do
  if ← atFunctionType g then return ← signature g "=>"
  if (← isWord "abstract") && (← peek).lexeme == .word "new" false then
    advance
    advance
    return ← signature g "=>"
  if ← isWord "new" then
    advance
    return ← signature g "=>"
  let subject ← unionType g
  if (← isWord "extends") && !(← afterBreak) then
    advance
    let bound ← unionType g
    expect "?"
    let yes ← g.typing
    expect ":"
    let no ← g.typing
    return subject ++ bound ++ yes ++ no
  return subject

end Parser

end TemplateSyntax.Script
