import TemplateSyntax.Script.Parser.Basic

/-!
# Patterns and parameters

Patterns of bindings, and the lists of parameters that are made of them.
-/

namespace TemplateSyntax.Script

namespace Parser

variable (g : Grammar)

/-- A key between brackets, or one that is a word, a string or a number; for a word, its name. -/
def propertyKey : Parser (Key × Option Ident) := do
  let t ← token
  match t.lexeme with
  | .word n _ =>
    advance
    return (.fixed ⟨t.start, t.stop⟩, some ⟨n, ⟨t.start, t.stop⟩⟩)
  | .string _ | .number | .bigint =>
    advance
    return (.fixed ⟨t.start, t.stop⟩, none)
  | .punct "[" =>
    advance
    let e ← inMode (fun m => { m with allowsIn := true }) g.assignment
    expect "]"
    return (.computed e, none)
  | _ => unexpected

/-- A type behind a colon, if the language has types and there is a colon. -/
def typeAnnotation? : Parser (Option (List Expr)) := do
  if (← isTyped) && (← isPunct ":") then
    advance
    return some (← g.typing)
  else return none

/-- A pattern with its default, if one follows. -/
def withDefault (left : Pat) (start : Nat) : Parser Pat := do
  if ← eat "=" then
    let right ← inMode (fun m => { m with allowsIn := true }) g.assignment
    return .withDefault (← spanFrom start) left right
  else return left

/-- A pattern with its default. -/
def bindingElement : Parser Pat := do
  let first ← start
  withDefault g (← g.binding) first

/-- A rest of an array or of parameters must be the last one: what follows it is a fault. -/
def checkRestIsLast (isRest : Bool) (close : String) : Parser Unit := do
  if isRest && (← isPunct close) then recover ((← lastStop) - 1)

/-- One element of an array pattern; `lastRest` is the place of a rest before it. -/
def arrayPatternElement : Parser (Option Pat) := do
  if ← isPunct "]" then return none
  if ← atEnd then return none
  if ← eat "," then return some .hole
  let first ← start
  let isRest ← eat "..."
  let p ← if isRest then do
      let inner ← g.binding
      pure (Pat.rest (← spanFrom first) inner)
    else bindingElement g
  if !(← isPunct "]") then
    expect ","
    checkRestIsLast isRest "]"
  return some p

/-- Puts rests on record that are not the last of their elements. -/
def recoverInnerRests : List Pat → Parser Unit
  | .rest s _ :: p :: ps => do
    match p with
    | .hole => return ()
    | _ => recover s.start
    recoverInnerRests (p :: ps)
  | _ :: ps => recoverInnerRests ps
  | [] => return ()

/-- A pattern between brackets. -/
def arrayPattern : Parser Pat := do
  let first ← start
  expect "["
  let elements ← many (arrayPatternElement g)
  recoverInnerRests elements
  expect "]"
  return .array (← spanFrom first) elements

/-- A property of an object pattern. -/
def objectPatternProperty : Parser PatProperty := do
  if ← eat "..." then return .rest (← g.binding)
  let (key, word) ← propertyKey g
  if ← eat ":" then return .keyValue key (← bindingElement g)
  match word with
  | none => unexpected
  | some id =>
    if ← eat "=" then
      let value ← inMode (fun m => { m with allowsIn := true }) g.assignment
      return .shorthandDefault id value
    if isReserved (← mode) id.name then recover id.span.start
    return .shorthand id

/-- A pattern between braces. -/
def objectPattern : Parser Pat := do
  let first ← start
  expect "\x7b"
  let properties ← commaList "\x7d" (objectPatternProperty g)
  return .object (← spanFrom first) properties

/-- A pattern of a binding without its default. -/
def bindingTarget : Parser Pat := do
  match ← lexeme with
  | .punct "[" => arrayPattern g
  | .punct "\x7b" => objectPattern g
  | _ =>
    let id ← name
    return .ident id id.span

/-- The pattern with a longer span. -/
def withSpan (p : Pat) (span : Span) : Pat :=
  match p with
  | .ident id _ => .ident id span
  | .array _ elements => .array span elements
  | .object _ properties => .object span properties
  | .rest _ argument => .rest span argument
  | p => p

/-- A pattern with the type behind it, and the expressions in that. -/
def annotated (p : Pat) (start : Nat) : Parser (Pat × List Expr) := do
  match ← typeAnnotation? g with
  | some types => return (withSpan p (← spanFrom start), types)
  | none => return (p, [])

/-- The words that turn a parameter of a constructor into a field. -/
def parameterModifiers : List String :=
  ["public", "private", "protected", "readonly", "override"]

/-- Takes modifiers of a parameter, each of which a name or pattern follows. -/
def skipParameterModifiers : Parser Unit := do
  let _ ← many (α := Unit) do
    if !(← isTyped) || !(← isWordOf parameterModifiers) then return none
    match (← peek).lexeme with
    | .word _ _ | .punct "[" | .punct "\x7b" => advance; return some ()
    | _ => return none
  return ()

/-- A parameter without dots. -/
def plainParameter : Parser (Pat × List Expr) := do
  let first ← start
  let p ← if (← isTyped) && (← isWord "this") then do
      let id ← anyWord
      pure (Pat.ident id id.span)
    else g.binding
  if ← isTyped then
    let _ ← eat "?"
  let (p, types) ← annotated g p first
  return (← withDefault g p first, types)

/-- A parameter that takes the rest of the arguments. -/
def restParameter : Parser (Pat × List Expr) := do
  let first ← start
  expect "..."
  let inner ← g.binding
  let inner ← do
    if ← isPunct "=" then
      recover inner.span.start
      withDefault g inner inner.span.start
    else pure inner
  let types := (← typeAnnotation? g).getD []
  return (.rest (← spanFrom first) inner, types)

/-- A parameter and the comma behind it. -/
def parameter : Parser (Option (Pat × List Expr)) := do
  if (← isPunct ")") || (← atEnd) then return none
  skipParameterModifiers
  let isRest ← isPunct "..."
  let p ← if isRest then restParameter g else plainParameter g
  if !(← isPunct ")") then
    expect ","
    checkRestIsLast isRest ")"
  return some p

/-- Parameters up to a closing parenthesis, which is taken, and the expressions in their types. -/
def parameters : Parser (List Pat × List Expr) := do
  let ps ← many (parameter g)
  recoverInnerRests (ps.map Prod.fst)
  expect ")"
  return (ps.map Prod.fst, (ps.map Prod.snd).flatten)

end Parser

end TemplateSyntax.Script
