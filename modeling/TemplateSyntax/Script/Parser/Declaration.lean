import TemplateSyntax.Script.Parser.Function

/-!
# Declarations

Declarations of variables, functions and classes, and those that only typed code has.
-/

namespace TemplateSyntax.Script

namespace Parser

variable (g : Grammar)

/-! ## Variables -/

/-- Whether the look-ahead is a `let` that starts a declaration. -/
def atLetDeclaration : Parser Bool := do
  if !(← isWord "let") then return false
  match (← peek).lexeme with
  | .word n _ => return !reservedWords.contains n
  | .punct p => return p == "[" || p == "\x7b"
  | _ => return false

/-- Whether the look-ahead starts a declaration of variables. -/
def atVarDeclaration : Parser Bool := do
  return (← isWordOf ["var", "const"]) || (← atLetDeclaration)

/-- A pattern and its value.  In the head of a loop over a collection there is no value, and
ambient code has none either; anywhere else only a plain name may go without. -/
def declarator (word : String) (inLoop isAmbient : Bool) : Parser Declarator := do
  let first ← start
  if word != "var" && (← isWord "let") then unexpected
  let p ← g.binding
  match p with
  | .ident .. =>
    if ← isTyped then
      let _ ← eat "!"
  | _ => pure ()
  let (p, _) ← annotated g p first
  if inLoop && (← isWordOf ["in", "of"]) then return .mk p []
  if ← eat "=" then return .mk p [← g.assignment]
  if isAmbient then return .mk p []
  if word == "const" && (← mode).isStrict then
    recover first
    return .mk p []
  match p with
  | .ident .. => return .mk p []
  | _ => throw first

/-- Patterns and values with commas in between.  A comma with nothing behind it is a fault that
does not stop the reading. -/
def declarators (word : String) (inLoop isAmbient : Bool) : Parser (List Declarator) := do
  let first ← declarator g word inLoop isAmbient
  let more ← many do
    let comma ← start
    if !(← eat ",") then return none
    if (← isPunct ";") || (← atEnd) then
      recover comma
      return none
    return some (← declarator g word inLoop isAmbient)
  return first :: more

/-- Takes what is left of a statement that should be over. -/
def skipStatement : Parser Unit := do
  if ← eat ";" then return ()
  if ← endsStatement then return ()
  recover (← start)
  orElseFrom (do let _ ← g.expression) fun _ => return ()
  let _ ← many (α := Unit) do
    if ← endsStatement then return none
    advance
    return some ()
  let _ ← eat ";"

/-- A statement that declares variables. -/
def varStatement (isAmbient : Bool) : Parser Stmt := do
  let first ← start
  let word := (← anyWord).name
  if ← isPunct ";" then recover (← lastStop)
  let ds ← if ← isPunct ";" then pure []
    else inMode (fun m => { m with allowsIn := true }) (declarators g word false isAmbient)
  skipStatement g
  return .varDecl (← spanFrom first) (word == "var") ds

/-! ## Functions and classes -/

/-- A function that is declared, at `function` or at the `async` in front of it. -/
def functionDeclaration : Parser Stmt := do
  let first ← start
  let isAsync ← eatWord "async"
  expectWord "function"
  let (id, f) ← functionTail g isAsync true
  return .fnDecl (← spanFrom first) (id.getD default) f

/-- A class that is declared. -/
def classDeclaration : Parser Stmt := do
  let first ← start
  expectWord "class"
  let (id, c) ← classTail g true
  return .classDecl (← spanFrom first) (id.getD default) c

/-- Whether the look-ahead is `async` in front of `function` on the same line. -/
def atAsyncFunction : Parser Bool := do
  if !(← isWord "async") then return false
  let next ← peek
  return next.lexeme == .word "function" false && !next.afterBreak

/-! ## Declarations of typed code -/

/-- A declaration that binds nothing a script could use, by the expressions and statements in
it. -/
def otherDeclaration (first : Nat) (exprs : List Expr) (body : List Stmt) : Parser Stmt := do
  return .plain .otherDecl (← spanFrom first) exprs body

/-- The end of an enumeration from its name on. -/
def enumRest (first : Nat) : Parser Stmt := do
  let _ ← anyWord
  expect "\x7b"
  let values ← commaList "\x7d" do
    let _ ← propertyKey g
    if ← eat "=" then return [← g.assignment] else return []
  otherDeclaration first values.flatten []

/-- The end of an interface from its name on. -/
def interfaceRest (first : Nat) : Parser Stmt := do
  let _ ← anyWord
  let bounds ← typeParameters? g
  let parent : Parser (List Expr) := do
    let e ← g.leftHand
    let types ← if ← atLess then typeArguments g else pure []
    return e :: types
  let parents ← if ← eatWord "extends" then do
      let e ← parent
      let more ← many do
        if ← eat "," then return some (← parent) else return none
      pure (e ++ more.flatten)
    else pure []
  let members ← typeMembers g
  otherDeclaration first (bounds ++ parents ++ members) []

/-- The end of a type alias from its name on. -/
def aliasRest (first : Nat) : Parser Stmt := do
  let _ ← anyWord
  let bounds ← typeParameters? g
  expect "="
  let types ← g.typing
  semicolon
  otherDeclaration first (bounds ++ types) []

/-- The statements of a namespace, any of which may be exported. -/
def namespaceBody : Parser (List Stmt) := do
  expect "\x7b"
  let body ← many do
    if (← isPunct "\x7d") || (← atEnd) then return none
    let _ ← eatWord "export"
    return some (← g.statement)
  if ← atEnd then recover (← start) else expect "\x7d"
  return body

/-- The end of a namespace from its name on. -/
def namespaceRest (first : Nat) : Parser Stmt := do
  let _ ← anyWord
  dottedNames
  otherDeclaration first [] (← namespaceBody g)

/-- The end of a module that is named by a string, from that on.  It may have no body. -/
def ambientModuleRest (first : Nat) : Parser Stmt := do
  advance
  if ← isPunct "\x7b" then otherDeclaration first [] (← namespaceBody g)
  else
    semicolon
    otherDeclaration first [] []

/-- A declaration whose first word has been taken: the word decides what it is, unless what
follows shows that it is an expression. -/
def typedDeclaration? (first : Nat) (word : String) : Parser (Option Stmt) := do
  let atName := (← nameHere?).isSome
  let onLine := !(← afterBreak)
  match word with
  | "abstract" =>
    if (← isWord "class") && onLine then
      match ← classDeclaration g with
      | .classDecl s id c => return some (.classDecl ⟨first, s.stop⟩ id c)
      | s => return some s
    return none
  | "enum" => if atName then return some (← enumRest g first) else return none
  | "interface" => if atName then return some (← interfaceRest g first) else return none
  | "module" =>
    match ← lexeme with
    | .string _ => if onLine then return some (← ambientModuleRest g first) else return none
    | _ => if atName && onLine then return some (← namespaceRest g first) else return none
  | "namespace" =>
    if atName && onLine then return some (← namespaceRest g first) else return none
  | "type" => if atName && onLine then return some (← aliasRest g first) else return none
  | "global" =>
    if ← isPunct "\x7b" then return some (← otherDeclaration first [] (← namespaceBody g))
    return none
  | _ => return none

/-- The statement with another start. -/
def startingAt (first : Nat) : Stmt → Stmt
  | .varDecl s isVar ds => .varDecl ⟨first, s.stop⟩ isVar ds
  | .fnDecl s id f => .fnDecl ⟨first, s.stop⟩ id f
  | .classDecl s id c => .classDecl ⟨first, s.stop⟩ id c
  | .plain k s exprs body => .plain k ⟨first, s.stop⟩ exprs body
  | s => s

/-- An enumeration whose values are constants. -/
def constEnum (first : Nat) : Parser Stmt := do
  expectWord "const"
  expectWord "enum"
  enumRest g first

/-- What follows `declare`, if that starts a declaration. -/
def ambientDeclaration? (first : Nat) : Parser (Option Stmt) := do
  if ← isWord "function" then return some (startingAt first (← functionDeclaration g))
  if ← isWord "class" then return some (startingAt first (← classDeclaration g))
  if (← isWord "const") && (← peek).lexeme == .word "enum" false then
    return some (← constEnum g first)
  if ← isWordOf ["const", "var", "let"] then
    return some (startingAt first (← varStatement g true))
  match ← lexeme with
  | .word n false =>
    if !(["abstract", "enum", "interface", "module", "namespace", "type", "global"].contains n) then
      return none
    advance
    return (← typedDeclaration? g first n).map (startingAt first)
  | _ => return none

/-- A declaration that starts with a word which has been taken as an expression. -/
def declarationOf? (first : Nat) (word : String) : Parser (Option Stmt) := do
  if word == "declare" then ambientDeclaration? g first else typedDeclaration? g first word

end Parser

end TemplateSyntax.Script
