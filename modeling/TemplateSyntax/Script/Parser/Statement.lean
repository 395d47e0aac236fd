import TemplateSyntax.Script.Parser.Cover
import TemplateSyntax.Script.Parser.Declaration

/-!
# Statements
-/

namespace TemplateSyntax.Script

namespace Parser

variable (g : Grammar)

/-- A statement by its parts, from `first` to here. -/
def plainFrom (kind : StmtKind) (first : Nat) (exprs : List Expr) (body : List Stmt) :
    Parser Stmt := do
  return .plain kind (← spanFrom first) exprs body

/-- An expression in which `in` is an operator. -/
def wholeExpression : Parser Expr := inMode (fun m => { m with allowsIn := true }) g.expression

/-- An expression between parentheses. -/
def condition : Parser Expr := do
  expect "("
  let e ← wholeExpression g
  expect ")"
  return e

/-- The body of a loop. -/
def loopBody : Parser Stmt :=
  inMode (fun m => { m with canBreak := true, canContinue := true }) g.substatement

/-- Statements between braces. -/
def blockBody : Parser (List Stmt) := do
  expect "\x7b"
  statementsToBrace g

/-! ## Jumps -/

/-- Whether a jump may stand here: it needs a loop around it, and a label must be known. -/
def jumpAllowed (isBreak : Bool) (label : Option Ident) : Parser Bool := do
  let m ← mode
  let known := match label with
    | some id => m.labels.contains id.name
    | none => true
  return known && (if isBreak then m.canBreak else m.canContinue)

/-- `break` or `continue`. -/
def jumpStatement (isBreak : Bool) : Parser Stmt := do
  let first ← start
  advance
  let label ← do
    if ← eat ";" then pure none
    else if ← endsStatement then pure none
    else
      let id ← name
      semicolon
      pure (some id)
  if !(← jumpAllowed isBreak label) then recover first
  plainFrom (if isBreak then .breakStmt else .continueStmt) first [] []

/-- `return`, which may stand in functions only. -/
def returnStatement : Parser Stmt := do
  let first ← start
  advance
  let value ← if ← endsStatement then pure [] else pure [← wholeExpression g]
  semicolon
  if !(← mode).inFunction then recover first
  plainFrom .returnStmt first value []

/-- `throw`, with its value on the same line. -/
def throwStatement : Parser Stmt := do
  let first ← start
  advance
  if ← afterBreak then unexpected
  let value ← wholeExpression g
  semicolon
  plainFrom .throw first [value] []

/-! ## Branches -/

/-- `if`.  A parenthesis that is not closed ends the statement, but not the reading. -/
def ifStatement : Parser Stmt := do
  let first ← start
  advance
  expect "("
  let test ← wholeExpression g
  if !(← eat ")") then
    recover (← start)
    return ← plainFrom .ifStmt first [test] []
  let yes ← g.substatement
  let no ← if ← eatWord "else" then pure [← g.substatement] else pure []
  plainFrom .ifStmt first [test] (yes :: no)

/-- A case of `switch`, with its test and its statements. -/
def switchCase (afterDefault : Bool) : Parser (Bool × List Expr × List Stmt) := do
  let isDefault ← isWord "default"
  advance
  if isDefault && afterDefault then unexpected
  let test ← if isDefault then pure [] else pure [← wholeExpression g]
  expect ":"
  let body ← many do
    if (← isWordOf ["case", "default"]) || (← isPunct "\x7d") then return none
    return some (← g.statement)
  return (isDefault, test, body)

/-- The cases of `switch`, at most `fuel` of them. -/
def switchCases : Nat → Bool → Parser (List Expr × List Stmt)
  | 0, _ => return ([], [])
  | fuel + 1, afterDefault => do
    if !(← isWordOf ["case", "default"]) then return ([], [])
    let (isDefault, test, body) ← switchCase g afterDefault
    let (tests, bodies) ← switchCases fuel (afterDefault || isDefault)
    return (test ++ tests, body ++ bodies)

/-- `switch`, with one default at most. -/
def switchStatement : Parser Stmt := do
  let first ← start
  advance
  let subject ← condition g
  expect "\x7b"
  let (tests, body) ← inMode (fun m => { m with canBreak := true }) do
    switchCases g ((← get).rest.length + 2) false
  expect "\x7d"
  plainFrom .switch first (subject :: tests) body

/-! ## Exceptions -/

/-- What `catch` binds, if it binds something. -/
def catchParameter : Parser (List Pat) := do
  if ← eat "(" then
    let first ← start
    let (p, _) ← annotated g (← g.binding) first
    expect ")"
    return [p]
  else return []

/-- The parameter and the statements behind `catch`, if it is there. -/
def catchClause? : Parser (Option (List Pat × List Stmt)) := do
  if ← eatWord "catch" then
    let param ← catchParameter g
    return some (param, ← blockBody g)
  else return none

/-- The statements behind `finally`, if it is there. -/
def finallyClause? : Parser (Option (List Stmt)) := do
  if ← eatWord "finally" then return some (← blockBody g) else return none

/-- `try`, which needs a `catch` or a `finally`. -/
def tryStatement : Parser Stmt := do
  let first ← start
  advance
  let body ← blockBody g
  let clauses ← start
  let handler ← catchClause? g
  let finalizer ← finallyClause? g
  if handler.isNone && finalizer.isNone then recover clauses
  let (param, handler) := handler.getD ([], [])
  return .tryCatch (← spanFrom first) body param handler (finalizer.getD [])

/-- A `catch` or `finally` without a `try`, which is a fault. -/
def strayClauses : Parser Stmt := do
  let first ← start
  recover first
  let _ ← catchClause? g
  let _ ← finallyClause? g
  plainFrom .empty first [] []

/-! ## Loops -/

/-- `while`. -/
def whileStatement : Parser Stmt := do
  let first ← start
  advance
  let test ← condition g
  let body ← loopBody g
  plainFrom .whileStmt first [test] [body]

/-- `do`, behind which a semicolon may be missing. -/
def doStatement : Parser Stmt := do
  let first ← start
  advance
  let body ← loopBody g
  expectWord "while"
  let test ← condition g
  let _ ← eat ";"
  plainFrom .doWhile first [test] [body]

/-- What stands between the parentheses of `for`. -/
inductive LoopHead where
  | steps (init : List Stmt) (exprs : List Expr)
  | each (isOf : Bool) (head : ForHead) (right : Expr)

/-- The end of a head that counts: the test and the update. -/
def stepsRest (init : List Stmt) : Parser LoopHead := do
  let test ← if ← isPunct ";" then pure [] else pure [← wholeExpression g]
  expect ";"
  let update ← if ← isPunct ")" then pure [] else pure [← wholeExpression g]
  return .steps init (test ++ update)

/-- The end of a head that goes over a collection, at `of` or `in`. -/
def eachRest (head : ForHead) : Parser LoopHead := do
  let isOf ← isWord "of"
  advance
  let right ← inMode (fun m => { m with allowsIn := true })
    (if isOf then g.assignment else g.expression)
  return .each isOf head right

/-- Records what a declaration in a head over a collection must not have: more than one pattern,
or a value. -/
def checkEachDeclaration (ds : List Declarator) : Parser Unit := do
  match ds with
  | [.mk p init] =>
    if !init.isEmpty && ((← isWord "of") || (← mode).isStrict) then recover p.span.start
  | _ =>
    match ds.drop 1 with
    | .mk p _ :: _ => recover p.span.start
    | [] => return ()

/-- The head of a loop that starts with a declaration. -/
def declaredHead : Parser LoopHead := do
  let first ← start
  let word := (← anyWord).name
  let ds ← inMode (fun m => { m with allowsIn := true }) (declarators g word true false)
  if ← isWordOf ["of", "in"] then
    checkEachDeclaration ds
    return ← eachRest g (.declaration (word == "var") ds)
  let decl : Stmt := .varDecl (← spanFrom first) (word == "var") ds
  expect ";"
  stepsRest g [decl]

/-- What stands between the parentheses of `for`. -/
def loopHead : Parser LoopHead := do
  if ← atVarDeclaration then return ← declaredHead g
  if ← eat ";" then return ← stepsRest g []
  let init ← inMode (fun m => { m with allowsIn := false }) g.expression
  if ← isWordOf ["of", "in"] then
    let target ← toPattern false init
    return ← eachRest g (.target target)
  expect ";"
  checkObject init
  stepsRest g [.expr init.span init]

/-- `for`. -/
def forStatement : Parser Stmt := do
  let first ← start
  advance
  let wait ← start
  let isAwait ← eatWord "await"
  expect "("
  let head ← loopHead g
  expect ")"
  let body ← loopBody g
  let span ← spanFrom first
  match head with
  | .steps init exprs =>
    if isAwait then throw wait
    return .forLoop span init exprs body
  | .each true head right => return .forEach .forOf span head right body
  | .each false head right =>
    if isAwait then throw wait
    return .forEach .forIn span head right body

/-! ## Other statements -/

/-- `with`, which typed and strict code have not. -/
def withStatement : Parser Stmt := do
  let first ← start
  if (← isTyped) || (← mode).isStrict then recover first
  advance
  let subject ← condition g
  let body ← g.substatement
  plainFrom .withStmt first [subject] [body]

/-- A statement behind its label and the colon. -/
def labeledRest (label : Ident) : Parser Stmt := do
  if (← mode).labels.contains label.name then recover label.span.start
  let body ← inMode (fun m => { m with canBreak := true, labels := label.name :: m.labels })
    (if (← isWord "function") then functionDeclaration g else g.substatement)
  plainFrom .labeled label.span.start [] [body]

/-- An expression as a statement, or what starts with a name as an expression does: a statement
with a label, or a declaration of typed code. -/
def expressionStatement : Parser Stmt := do
  let first ← start
  let e ← wholeExpression g
  match e with
  | .ident id =>
    if ← eat ":" then return ← labeledRest g id
    if ← isTyped then
      if let some s ← declarationOf? g first id.name then return s
  | e => checkObject e
  semicolon
  return .expr (← spanFrom first) e

/-- A call of `import`, or the data of a module; all else that starts with `import` or `export`
belongs to modules only. -/
def importStatement : Parser Stmt := do
  let first ← start
  let next ← peek
  if (← isWord "import") && (next.lexeme == .punct "(" || next.lexeme == .punct ".") then
    let e ← wholeExpression g
    let _ ← eat ";"
    return .expr (← spanFrom first) e
  else unexpected

/-- Whether a word of typed code starts a declaration: another word follows on the same line. -/
def startsTypedDeclaration : Parser Bool := do
  let next ← peek
  match next.lexeme with
  | .word _ _ => return (← isTyped) && !next.afterBreak
  | _ => return false

/-- A statement that starts with a word. -/
def wordStatement (allowsDeclaration : Bool) (word : String) : Parser Stmt := do
  let first ← start
  match word with
  | "import" | "export" => importStatement g
  | "break" => jumpStatement true
  | "continue" => jumpStatement false
  | "debugger" =>
    advance
    semicolon
    plainFrom .debugger first [] []
  | "do" => doStatement g
  | "for" => forStatement g
  | "function" =>
    if !allowsDeclaration then recover first
    functionDeclaration g
  | "class" =>
    if !allowsDeclaration then recover first
    classDeclaration g
  | "if" => ifStatement g
  | "return" => returnStatement g
  | "switch" => switchStatement g
  | "throw" => throwStatement g
  | "catch" | "finally" => strayClauses g
  | "try" => tryStatement g
  | "with" => withStatement g
  | "while" => whileStatement g
  | "var" => varStatement g false
  | "const" =>
    if (← isTyped) && (← peek).lexeme == .word "enum" false then constEnum g first
    else if allowsDeclaration then varStatement g false
    else expressionStatement g
  | "let" =>
    if allowsDeclaration && (← atLetDeclaration) then varStatement g false
    else expressionStatement g
  | "interface" | "type" | "enum" =>
    if ← startsTypedDeclaration then
      advance
      match word with
      | "interface" => interfaceRest g first
      | "type" => aliasRest g first
      | _ => enumRest g first
    else expressionStatement g
  | _ => if ← atAsyncFunction then functionDeclaration g else expressionStatement g

/-- A statement; a declaration only where one may stand. -/
def anyStatement (allowsDeclaration : Bool) : Parser Stmt := do
  let first ← start
  match ← lexeme with
  | .word n false => wordStatement g allowsDeclaration n
  | .punct "\x7b" =>
    let body ← blockBody g
    return .block (← spanFrom first) body
  | .punct ";" =>
    advance
    plainFrom .empty first [] []
  | _ => expressionStatement g

end Parser

end TemplateSyntax.Script
