import TemplateSyntax.Script.Parser.Typing

/-!
# Functions and classes
-/

namespace TemplateSyntax.Script

namespace Parser

variable (g : Grammar)

/-- The mode in a function. -/
def functionMode (isAsync isGenerator : Bool) (m : Mode) : Mode :=
  { m with
    inFunction := true, inAsync := isAsync, inGenerator := isGenerator, allowsIn := true
    inConditional := false, canBreak := false, canContinue := false, labels := [] }

/-- A string alone at the start of a body, which may make the code in it strict. -/
def directive : Parser (Option Stmt) := do
  match ← lexeme with
  | .string raw =>
    let found ← attempt do
      let s ← g.statement
      match s with
      | .expr _ (.literal _) => return s
      | _ => unexpected
    if found.isSome && raw == "use strict".toList then
      modify fun s => { s with mode := { s.mode with isStrict := true } }
    return found
  | _ => return none

/-- Statements up to a closing brace, which is taken.  That it is missing at the end of the text
does not stop the reading. -/
def statementsToBrace : Parser (List Stmt) := do
  let body ← many do
    if (← isPunct "\x7d") || (← atEnd) then return none
    return some (← g.statement)
  if ← atEnd then recover (← start) else expect "\x7d"
  return body

/-- The body of a function with its braces. -/
def functionBody (f : Mode → Mode) : Parser (List Stmt) :=
  inMode f do
    expect "\x7b"
    let directives ← many (directive g)
    return directives ++ (← statementsToBrace g)

/-- The body of a function; where there are types it may be missing. -/
def functionBody? (f : Mode → Mode) : Parser (List Stmt) := do
  if (← isTyped) && !(← isPunct "\x7b") then
    semicolon
    return []
  else functionBody g f

/-- The parameters and the body of a function, behind its name. -/
def functionRest (f : Mode → Mode) : Parser Func := do
  let _ ← typeParameters? g
  let params ← inMode f do
    expect "("
    return (← parameters g).1
  let _ ← resultType? g
  return .mk params (← functionBody? g f)

/-- A function behind `function`: its name, if it has one, and the rest.  A declared function has
its name in the code around it, an expression in its own. -/
def functionTail (isAsync isDeclaration : Bool) : Parser (Option Ident × Func) := do
  let isGenerator ← eat "*"
  let own (m : Mode) : Mode :=
    { functionMode isAsync isGenerator m with hasOwnThis := true, hasSuper := false }
  let id ← inMode (fun m => if isDeclaration then m else own m) do
    if (← nameHere?).isSome then return some (← name) else return none
  if isDeclaration && id.isNone then unexpected
  return (id, ← functionRest g own)

/-- The mode in a method. -/
def methodMode (isAsync isGenerator : Bool) (m : Mode) : Mode :=
  { functionMode isAsync isGenerator m with hasOwnThis := true, hasSuper := true }

/-- The body of a getter behind its key, with the expressions in its type. -/
def getterRest : Parser (List Expr × List Stmt) := do
  expect "("
  expect ")"
  let types ← resultType? g
  return (types, ← functionBody? g (methodMode false false))

/-- The parameter and the body of a setter behind its key. -/
def setterRest : Parser (Pat × List Stmt) := do
  expect "("
  let (params, _) ← parameters g
  let body ← functionBody? g (methodMode false false)
  match params with
  | [p] => return (p, body)
  | _ => unexpected

/-- The key of a member, which may be private. -/
def memberName : Parser (Key × Option Ident) := do
  match ← lexeme with
  | .privateName _ =>
    let t ← token
    advance
    return (.fixed ⟨t.start, t.stop⟩, none)
  | _ => propertyKey g

/-- Whether a token shows that the word in front of it is the key of a member. -/
def endsMemberKey (t : ScriptToken) : Bool :=
  match t.lexeme with
  | .punct p => ["(", "<", "?", "!", ":", "=", ";", ",", "\x7d"].contains p
  | .eof => true
  | _ => false

/-- Takes a modifier of a member; a word that is the key of the member is none. -/
def eatMemberModifier (word : String) : Parser Bool := do
  if ← isWord word then
    if endsMemberKey (← peek) then return false
    advance
    return true
  else return false

/-- The modifiers that only types have a use for. -/
def typedModifiers : List String :=
  ["public", "private", "protected", "abstract", "readonly", "override", "declare", "accessor"]

/-- Takes the modifiers of a member, and tells whether it is static. -/
def memberModifiers : Parser Bool := do
  let found ← many do
    if ← eatMemberModifier "static" then return some true
    if (← isTyped) && (← isWordOf typedModifiers) && !endsMemberKey (← peek) then
      advance
      return some false
    return none
  return found.contains true

/-- A field behind its key. -/
def fieldRest (key : Key) : Parser Member := do
  if ← isTyped then
    if ← isPunctOf ["?", "!"] then advance
  let types := (← typeAnnotation? g).getD []
  let value ← if ← eat "=" then
      let e ← inMode (fun m => { methodMode false false m with inFunction := m.inFunction })
        g.assignment
      pure [e]
    else pure []
  semicolon
  return .field key (value ++ types)

/-- A member behind its modifiers. -/
def memberRest (isStatic : Bool) : Parser Member := do
  if (← isTyped) && (← atIndexSignature) then return .types (← indexSignature g)
  if ← eat "*" then
    let (key, _) ← memberName g
    return .method key (← functionRest g (methodMode false true))
  if (← isWord "async") && !endsMemberKey (← peek) && !(← peek).afterBreak then
    advance
    let isGenerator ← eat "*"
    let (key, _) ← memberName g
    return .method key (← functionRest g (methodMode true isGenerator))
  if ← eatMemberModifier "get" then
    let (key, _) ← memberName g
    expect "("
    expect ")"
    let _ ← resultType? g
    return .method key (.mk [] (← functionBody? g (methodMode false false)))
  if ← eatMemberModifier "set" then
    let (key, _) ← memberName g
    return .method key (← functionRest g (methodMode false false))
  let isConstructorName ← do
    match ← lexeme with
    | .string raw => pure (raw == "constructor".toList)
    | .word n _ => pure (n == "constructor")
    | _ => pure false
  let (key, _) ← memberName g
  if ← isTyped then
    let _ ← eat "?"
  if ← isPunctOf ["(", "<"] then
    let f ← functionRest g (methodMode false false)
    if isConstructorName && !isStatic then
      match f with
      | .mk params body => return .constructor params body
    else return .method key f
  fieldRest g key

/-- A member of a class. -/
def classMember : Parser (Option Member) := do
  let _ ← many (α := Unit) do
    if ← eat ";" then return some () else return none
  if ← isPunct "\x7d" then return none
  if (← isWord "static") && (← peek).lexeme == .punct "\x7b" then
    advance
    let body ← inMode (methodMode false false) do
      expect "\x7b"
      statementsToBrace g
    return some (.staticBlock body)
  let isStatic ← memberModifiers
  return some (← memberRest g isStatic)

/-- A class behind its name. -/
def classRest : Parser Class :=
  inMode (fun m => { m with isStrict := true }) do
    let bounds ← typeParameters? g
    let parent ← if ← eatWord "extends" then
        let e ← g.leftHand
        let types ← if (← isTyped) && (← atLess) then typeArguments g else pure []
        pure (e :: types)
      else pure []
    let contracts ← if (← isTyped) && (← eatWord "implements") then
        let contract : Parser (List Expr) := do
          let e ← g.leftHand
          let types ← if ← atLess then typeArguments g else pure []
          return e :: types
        let first ← contract
        let more ← many do
          if ← eat "," then return some (← contract) else return none
        pure (first ++ more.flatten)
      else pure []
    expect "\x7b"
    let members ← many (classMember g)
    expect "\x7d"
    return .mk (bounds ++ parent ++ contracts) members

/-- A class behind `class`: its name, if it has one, and the rest. -/
def classTail (isDeclaration : Bool) : Parser (Option Ident × Class) := do
  let isName ← do
    if (← isTyped) && (← isWord "implements") then
      pure ((← peek).lexeme == .word "implements" false)
    else pure (← nameHere?).isSome
  let id ← if isName then pure (some (← name)) else pure none
  if isDeclaration && id.isNone then unexpected
  return (id, ← classRest g)

end Parser

end TemplateSyntax.Script
