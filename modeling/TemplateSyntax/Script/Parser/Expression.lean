import TemplateSyntax.Script.Parser.Cover
import TemplateSyntax.Script.Parser.Function

/-!
# Expressions
-/

namespace TemplateSyntax.Script

namespace Parser

variable (g : Grammar)

/-! ## Literals -/

/-- Takes a literal of one token. -/
def simpleLiteral : Parser Expr := do
  let t ← token
  advance
  let span : Span := ⟨t.start, t.stop⟩
  return if t.lexeme == .number then .number span else .literal span

/-- The letters that may follow a regular expression. -/
def regexFlags : List Char := ['d', 'g', 'i', 'm', 's', 'u', 'v', 'y']

/-- A regular expression, at the slash that opens it. -/
def regexLiteral : Parser Expr := do
  let s ← get
  let first := s.token.start
  let body := Lexeme.regexEnd (first + 1) false (s.here.drop 1)
  resume body.rest body.stop
  if !body.closed then throw first
  if body.rest.head?.any Unicode.isIdentifierStart then
    let w := Lexeme.readWord body.rest body.stop ""
    let flags := w.name.toList
    if flags.any (fun c => !regexFlags.contains c) || flags.eraseDups.length != flags.length then
      recover first
    resume w.rest w.stop
    return .literal ⟨first, w.stop⟩
  return .literal ⟨first, body.stop⟩

/-- The expressions of a template behind its backtick or behind an expression in it.  A wrong
escape matters only where the template is no argument of a function. -/
def templateParts (isTagged : Bool) (first : Nat) : Nat → List Char → Nat → Parser (List Expr)
  | 0, _, _ => throw first
  | fuel + 1, cs, index => do
    if !isTagged then
      match Lexeme.templateFault? index cs with
      | some fault => throw fault
      | none => pure ()
    match Lexeme.templateEnd index cs with
    | .unclosed =>
      resume [] (index + Text.byteLength cs)
      throw first
    | .closed rest stop =>
      resume rest stop
      return []
    | .hole rest stop =>
      resume rest stop
      let e ← inMode (fun m => { m with allowsIn := true }) g.expression
      if !(← isPunct "\x7d") then unexpected
      let s ← get
      return e :: (← templateParts isTagged first fuel s.rest s.token.stop)

/-- The expressions of a template, at its backtick. -/
def templateExprs (isTagged : Bool) : Parser (List Expr) := do
  let s ← get
  templateParts g isTagged s.token.start (s.rest.length + 2) s.rest s.token.stop

/-- A template. -/
def templateLiteral : Parser Expr := do
  let first ← start
  let parts ← templateExprs g false
  return .compound .tpl (← spanFrom first) parts

/-- An element of an array or an argument. -/
def argument : Parser Arg := do
  let first ← start
  if ← eat "..." then return .spread first (← g.assignment) else return .item (← g.assignment)

/-- The elements of an array up to its closing bracket, which is taken. -/
def arrayElements : Parser (List Arg) := do
  let elements ← many do
    if ← isPunct "]" then return none
    if ← eat "," then return some Arg.hole
    let a ← argument g
    if !(← isPunct "]") then expect ","
    return some a
  expect "]"
  return elements

/-- An array. -/
def arrayLiteral : Parser Expr := do
  let first ← start
  expect "["
  let elements ← inMode (fun m => { m with allowsIn := true }) (arrayElements g)
  return .array (← spanFrom first) elements

/-- Whether a token shows that the word in front of it is the key of a property. -/
def endsPropertyKey (t : ScriptToken) : Bool :=
  match t.lexeme with
  | .punct p => ["(", "<", ":", "=", ",", "\x7d"].contains p
  | .eof => true
  | _ => false

/-- A property of an object. -/
def property : Parser Property := do
  let first ← start
  if ← eat "..." then
    let e ← g.assignment
    return .spread (← spanFrom first) e
  if ← eat "*" then
    let (key, _) ← propertyKey g
    let f ← functionRest g (methodMode false true)
    return .method (← spanFrom first) key f
  if (← isWord "async") && !endsPropertyKey (← peek) && !(← peek).afterBreak then
    advance
    let isGenerator ← eat "*"
    let (key, _) ← propertyKey g
    let f ← functionRest g (methodMode true isGenerator)
    return .method (← spanFrom first) key f
  if (← isWord "get") && !endsPropertyKey (← peek) then
    advance
    let (key, _) ← propertyKey g
    let (types, body) ← getterRest g
    return .getter (← spanFrom first) key types body
  if (← isWord "set") && !endsPropertyKey (← peek) then
    advance
    let (key, _) ← propertyKey g
    let (param, body) ← setterRest g
    return .setter (← spanFrom first) key param body
  let (key, word) ← propertyKey g
  if ← eat ":" then return .keyValue key (← g.assignment)
  if (← isPunct "(") || ((← isTyped) && (← isPunct "<")) then
    let f ← functionRest g (methodMode false false)
    return .method (← spanFrom first) key f
  match word with
  | none => unexpected
  | some id =>
    if ← eat "=" then return .shorthandDefault id (← g.assignment)
    if !(← isPunctOf [",", "\x7d"]) then unexpected
    if isReserved (← mode) id.name then recover id.span.start
    return .shorthand id

/-- An object. -/
def objectLiteral : Parser Expr := do
  let first ← start
  expect "\x7b"
  let properties ← inMode (fun m => { m with allowsIn := true }) (commaList "\x7d" (property g))
  return .object (← spanFrom first) properties

/-! ## Arrow functions and parentheses -/

/-- The body of an arrow function behind the arrow, as a statement. -/
def arrowBody (isAsync : Bool) : Parser Stmt := do
  let first ← start
  if ← isPunct "\x7b" then
    let body ← functionBody g (functionMode isAsync false)
    return .block (← spanFrom first) body
  else
    let e ← inMode (fun m =>
      { functionMode isAsync false m with
        allowsIn := m.allowsIn, inConditional := m.inConditional }) g.assignment
    return .expr e.span e

/-- An arrow function, at its arrow, which must be on the line of the parameters. -/
def arrowRest (first : Nat) (isAsync : Bool) (params : List Pat) : Parser Expr := do
  if ← afterBreak then unexpected
  expect "=>"
  let body ← arrowBody g isAsync
  return .arrow (← spanFrom first) params body

/-- An arrow function with types, at its parentheses or type parameters. -/
def typedArrow (first : Nat) (isAsync : Bool) : Parser Expr := do
  let _ ← typeParameters? g
  let params ← inMode (functionMode isAsync false) do
    expect "("
    return (← parameters g).1
  let _ ← resultType? g
  let e ← arrowRest g first isAsync params
  if (← mode).inConditional && !(← isPunct ":") then unexpected
  return e

/-- The items between parentheses, and the comma behind the last one. -/
def parenthesizedItems : Parser (List Arg × Option Nat) := do
  let items ← many do
    if ← isPunct ")" then return none
    let a ← argument g
    if ← isPunct ")" then return some (a, none)
    let comma ← start
    expect ","
    return some (a, some comma)
  expect ")"
  return (items.map Prod.fst, items.getLast?.bind Prod.snd)

/-- Items between parentheses as parameters. -/
def itemsToParameters (items : List Arg) : Parser (List Pat) := toElements true items

/-- Whether an arrow function may start at an index. -/
def mayStartArrow (index : Nat) : Parser Bool := return (← get).arrowStart == some index

/-- The expressions of items, none of which may be spread. -/
def itemsToExprs (items : List Arg) : Parser (List Expr) :=
  items.mapM fun
    | .item e => return e
    | .spread _ e => throw e.span.start
    | .hole => unexpected

/-- Parentheses, or the parameters of an arrow function and what follows. -/
def parenthesized : Parser Expr := do
  let first ← start
  let mayArrow ← mayStartArrow first
  if mayArrow && (← isTyped) then
    if let some e ← attempt (typedArrow g first false) then return e
  expect "("
  let (items, comma) ← inMode (fun m => { m with allowsIn := true, inConditional := false })
    (parenthesizedItems g)
  if ← isPunct "=>" then
    if !mayArrow || (← afterBreak) then unexpected
    let params ← itemsToParameters items
    return ← arrowRest g first false params
  let span ← spanFrom first
  let exprs ← itemsToExprs items
  exprs.forM checkObject
  match comma with
  | some index => recover index
  | none => pure ()
  match exprs with
  | [] => throw first
  | [e] => return .paren span e
  | e :: es =>
    let last := (es.getLast?.map Expr.span).getD e.span
    return .paren span (.compound .seq ⟨e.span.start, last.stop⟩ exprs)

/-- What `async` starts: a function, or else a name, which may be called. -/
def asyncStart : Parser Expr := do
  let first ← start
  let mayArrow ← mayStartArrow first
  let next ← peek
  if next.lexeme == .word "function" false && !next.afterBreak then
    advance
    advance
    let (id, f) ← functionTail g true false
    return .fn (← spanFrom first) id f
  let id ← name
  if !mayArrow || (← afterBreak) then
    if mayArrow && (← isPunct "=>") then
      return ← arrowRest g first false [.ident id id.span]
    return .ident id
  if ← isPunct "=>" then return ← arrowRest g first false [.ident id id.span]
  if (← nameHere?).isSome then
    if (← peek).lexeme == .punct "=>" then
      let param ← name
      return ← arrowRest g first true [.ident param param.span]
    return .ident id
  if (← isTyped) && ((← isPunct "(") || (← isPunct "<")) then
    if let some e ← attempt (typedArrow g first true) then return e
  if ← isPunct "(" then
    advance
    let (items, _) ← inMode (fun m => { m with allowsIn := true, inConditional := false })
      (parenthesizedItems g)
    if (← isPunct "=>") && !(← afterBreak) then
      let params ← itemsToParameters items
      return ← arrowRest g first true params
    return .call (← spanFrom first) (.ident id) items []
  return .ident id

/-! ## Operands -/

/-- An operand without calls and members. -/
def primary : Parser Expr := do
  let t ← token
  let span : Span := ⟨t.start, t.stop⟩
  match t.lexeme with
  | .number | .bigint | .string _ => simpleLiteral
  | .template => templateLiteral g
  | .punct "(" => parenthesized g
  | .punct "[" => arrayLiteral g
  | .punct "\x7b" => objectLiteral g
  | .punct "/" | .punct "/=" => regexLiteral
  | .privateName _ =>
    if (← peek).lexeme == .word "in" false then
      advance
      return .compound .other span []
    else unexpected
  | .word "this" false => advance; return .compound .this span []
  | .word "null" false | .word "true" false | .word "false" false => simpleLiteral
  | .word "function" false =>
    advance
    let (id, f) ← functionTail g false false
    return .fn (← spanFrom t.start) id f
  | .word "class" false =>
    advance
    let (id, c) ← classTail g false
    return .cls (← spanFrom t.start) id c
  | .word "async" false => asyncStart g
  | .word _ _ =>
    let id ← name
    if (← isPunct "=>") && (← mayStartArrow t.start) then
      return ← arrowRest g t.start false [.ident id id.span]
    return .ident id
  | _ => unexpected

/-- The arguments of a call, at the opening parenthesis. -/
def callArguments : Parser (List Arg) := do
  expect "("
  inMode (fun m => { m with allowsIn := true, inConditional := false })
    (commaList ")" (argument g))

/-- The end of a member behind a dot: a word or a private name. -/
def memberWord : Parser Unit := do
  match ← lexeme with
  | .word _ _ | .privateName _ => advance
  | _ => unexpected

/-- An expression between brackets, at the opening one. -/
def bracketed : Parser Expr := do
  expect "["
  let e ← inMode (fun m => { m with allowsIn := true, inConditional := false }) g.expression
  expect "]"
  return e

/-- A link behind `?.`. -/
def optionalLink (first : Nat) (obj : Expr) : Parser Expr := do
  expect "?."
  match ← lexeme with
  | .punct "(" =>
    let args ← callArguments g
    return .compound .optChain (← spanFrom first) (obj :: args.filterMap Arg.expr?)
  | .punct "[" =>
    let e ← bracketed g
    return .compound .optChain (← spanFrom first) [obj, e]
  | .punct "<" =>
    if !(← isTyped) then unexpected
    let types ← typeArguments g
    let args ← callArguments g
    return .compound .optChain (← spanFrom first) (obj :: args.filterMap Arg.expr? ++ types)
  | _ =>
    memberWord
    return .compound .optChain (← spanFrom first) [obj]

/-- A call, which is a link of an optional chain if what it calls is one. -/
def callLink (first : Nat) (callee : Expr) (types : List Expr) : Parser Expr := do
  let args ← callArguments g
  let span ← spanFrom first
  if callee.isOptionalChain then
    return .compound .optChain span (callee :: args.filterMap Arg.expr? ++ types)
  else return .call span callee args types

/-- A member, which is a link of an optional chain if its object is one. -/
def memberKind (obj : Expr) : ExprKind := if obj.isOptionalChain then .optChain else .member

/-- Whether what follows shows that types in angle brackets were arguments: it is no operand. -/
def followsTypeArguments : Parser Bool := do
  if ← afterBreak then return true
  match ← lexeme with
  | .punct p => return !(["<", ">", "+", "-", "[", "\x7b", "!", "~", "++", "--", "/", "@"].contains p)
  | .word n _ => return ["in", "instanceof", "as", "satisfies"].contains n
  | .eof => return true
  | _ => return false

/-- A link behind types in angle brackets: a call, a template, or nothing. -/
def typedLink (first : Nat) (noCall : Bool) (obj : Expr) : Parser Expr := do
  let types ← typeArguments g
  if (← isPunct "(") && !noCall then callLink g first obj types
  else if (← lexeme) == .template then
    let parts ← templateExprs g true
    return .compound .taggedTpl (← spanFrom first) (obj :: types ++ parts)
  else
    if noCall || !(← followsTypeArguments) then unexpected
    return .compound .tsInstantiation (← spanFrom first) (obj :: types)

/-- One more link of a chain of members and calls, if there is one. -/
def link (first : Nat) (noCall : Bool) (obj : Expr) : Parser (Option Expr) := do
  match ← lexeme with
  | .punct "?." =>
    if noCall then unexpected
    return some (← optionalLink g first obj)
  | .punct "." =>
    advance
    memberWord
    return some (.compound (memberKind obj) (← spanFrom first) [obj])
  | .punct "[" =>
    let e ← bracketed g
    return some (.compound (memberKind obj) (← spanFrom first) [obj, e])
  | .punct "(" =>
    if noCall then return none
    return some (← callLink g first obj [])
  | .template =>
    if obj.isOptionalChain then recover (← start)
    let parts ← templateExprs g true
    return some (.compound .taggedTpl (← spanFrom first) (obj :: parts))
  | .punct "!" =>
    if (← isTyped) && !(← afterBreak) then
      advance
      return some (.compound .tsNonNull (← spanFrom first) [obj])
    return none
  | .punct "<" | .punct "<<" =>
    if ← isTyped then attempt (typedLink g first noCall obj) else return none
  | _ => return none

/-- The links of a chain of members and calls. -/
def linksUpTo (first : Nat) (noCall : Bool) : Nat → Expr → Parser Expr
  | 0, obj => return obj
  | fuel + 1, obj => do
    match ← link g first noCall obj with
    | some e => linksUpTo first noCall fuel e
    | none => return obj

/-- The links of a chain of members and calls. -/
def links (first : Nat) (noCall : Bool) (obj : Expr) : Parser Expr := do
  linksUpTo g first noCall ((← get).rest.length + 2) obj

/-- What `super` starts: a member or a call. -/
def superStart : Parser Expr := do
  let t ← token
  advance
  match ← lexeme with
  | .punct "." =>
    if !(← mode).hasSuper then throw t.start
    advance
    memberWord
    return .compound .superProp (← spanFrom t.start) []
  | .punct "[" =>
    if !(← mode).hasSuper then throw t.start
    let e ← bracketed g
    return .compound .superProp (← spanFrom t.start) [e]
  | .punct "(" =>
    if !(← mode).hasSuper then throw t.start
    let args ← callArguments g
    return .call (← spanFrom t.start) (.compound .other ⟨t.start, t.stop⟩ []) args []
  | _ => unexpected

/-- What `import` starts: a call, or the data of a module, which a script has not. -/
def importStart : Parser Expr := do
  let t ← token
  advance
  if ← eat "." then
    expectWord "meta"
    recover t.start
    return .compound .metaProp (← spanFrom t.start) []
  let args ← callArguments g
  return .call (← spanFrom t.start) (.compound .other ⟨t.start, t.stop⟩ []) args []

/-- What `new` starts, at most `fuel` of them in a row. -/
def newStart : Nat → Parser Expr
  | 0 => unexpected
  | fuel + 1 => do
    let t ← token
    advance
    if ← eat "." then
      expectWord "target"
      if !(← mode).hasOwnThis then recover t.start
      return .compound .metaProp (← spanFrom t.start) []
    let first ← start
    let base ← do
      match ← lexeme with
      | .word "new" false => newStart fuel
      | .word "super" false => superStart g
      | .word "import" false => importStart g
      | _ => primary g
    let callee ← links g first true base
    let types ← if (← isTyped) && (← atLess) then
        let found ← attempt do
          let types ← typeArguments g
          if !(← isPunct "(") then unexpected
          return types
        pure (found.getD [])
      else pure []
    if ← isPunct "(" then
      let args ← callArguments g
      return .compound .new (← spanFrom t.start) (callee :: args.filterMap Arg.expr? ++ types)
    if ← isPunct "?." then unexpected
    return .compound .new (← spanFrom t.start) [callee]

/-- An operand with calls and members. -/
def leftHandSide : Parser Expr := do
  let first ← start
  let base ← do
    match ← lexeme with
    | .word "new" false => newStart g ((← get).rest.length + 2)
    | .word "super" false => superStart g
    | .word "import" false => importStart g
    | _ => primary g
  if base.isArrow then return base
  links g first false base

/-! ## Operators -/

/-- An operand behind an operator.  What is wrong with it does not stop the reading. -/
def prefixOperand : Parser Expr :=
  orElseFrom g.unary fun index => do
    recover index
    return .literal ⟨index, index⟩

/-- A type in angle brackets in front of an operand. -/
def typeAssertion : Parser Expr := do
  let first ← start
  let isConst ← succeeds do
    expectLess
    expectWord "const"
    expectGreater
  expectLess
  let types ← if isConst then do
      advance
      pure []
    else g.typing
  expectGreater
  let e ← g.unary
  return .compound (if isConst then .tsConstAssertion else .tsTypeAssertion)
    (← spanFrom first) (e :: types)

/-- Where there are types, records that what is deleted is no member. -/
def checkDeleted (e : Expr) : Parser Unit := do
  let inner := e.withoutParens
  match inner.kind with
  | .member | .optChain => return ()
  | _ => if ← isTyped then recover inner.span.start

/-- What `await` starts.  Outside of asynchronous code it is a name where no operand can follow,
and a fault that does not stop the reading where one can. -/
def awaitExpr : Parser Expr := do
  let t ← token
  advance
  if !(← mode).inAsync then
    if (← endsStatement) || (← isPunctOf [")", "]", ","]) then
      return .ident ⟨"await", ⟨t.start, t.stop⟩⟩
    recover t.start
  let e ← g.unary
  return .compound .await (← spanFrom t.start) [e]

/-- An operand with the operators in front of it and behind it. -/
def unaryExpr : Parser Expr := do
  let first ← start
  match ← lexeme with
  | .punct "++" | .punct "--" =>
    advance
    let e ← g.unary
    checkTarget e
    return .update (← spanFrom first) e
  | .punct "!" | .punct "~" | .punct "+" | .punct "-" | .word "typeof" false =>
    advance
    let e ← prefixOperand g
    return .unary (← spanFrom first) false e
  | .word "delete" false =>
    advance
    let e ← prefixOperand g
    checkDeleted e
    return .unary (← spanFrom first) false e
  | .word "void" false =>
    advance
    let e ← prefixOperand g
    return .unary (← spanFrom first) true e
  | .word "await" false => awaitExpr g
  | .punct "<" => if ← isTyped then typeAssertion g else suffixed first
  | _ => suffixed first
where
  /-- An operand with the operator behind it, if that is on the same line. -/
  suffixed (first : Nat) : Parser Expr := do
    let e ← leftHandSide g
    if e.isArrow || (← afterBreak) then return e
    if ← isPunctOf ["++", "--"] then
      checkTarget e
      advance
      return .update (← spanFrom first) e
    return e

/-- The rank of a binary operator: the higher binds the closer. -/
def rank? (allowsIn : Bool) : Lexeme → Option Nat
  | .punct p =>
    match p with
    | "||" | "??" => some 1
    | "&&" => some 2
    | "|" => some 3
    | "^" => some 4
    | "&" => some 5
    | "==" | "!=" | "===" | "!==" => some 6
    | "<" | ">" | "<=" | ">=" => some 7
    | "<<" | ">>" | ">>>" => some 8
    | "+" | "-" => some 9
    | "*" | "/" | "%" => some 10
    | "**" => some 11
    | _ => none
  | .word "instanceof" false => some 7
  | .word "in" false => if allowsIn then some 7 else none
  | _ => none

/-- What matters about a binary operator. -/
def binaryOp : Lexeme → BinaryOp
  | .punct "||" | .punct "&&" => .logical
  | .punct "??" => .nullish
  | .punct "|" => .bitOr
  | _ => .other

/-- Records an operand of `??` that is a logical operation without parentheses. -/
def checkNullish (op : BinaryOp) (e : Expr) : Parser Unit := do
  match op, e with
  | .nullish, .binary s .logical _ _ => recover s.start
  | _, _ => return ()

/-- Whether an operator that takes a type follows on the same line. -/
def atTypeOperator (minRank : Nat) : Parser Bool := do
  return (← isTyped) && minRank < 7 && !(← afterBreak) && (← isWordOf ["as", "satisfies"])

/-- An operator that takes a type, and the type. -/
def typeOperation (left : Expr) : Parser Expr := do
  let isAs ← isWord "as"
  advance
  if isAs && (← isWord "const") then
    advance
    return .compound .tsConstAssertion (← spanFrom left.span.start) [left]
  let types ← g.typing
  return .compound (if isAs then .tsAs else .tsSatisfies) (← spanFrom left.span.start)
    (left :: types)

/-- Binary operations on a left operand, as far as their rank is above `minRank`. -/
def binaryTail : Nat → Nat → Expr → Parser Expr
  | 0, _, left => return left
  | fuel + 1, minRank, left => do
    if ← atTypeOperator minRank then
      return ← binaryTail fuel minRank (← typeOperation g left)
    let op ← lexeme
    match rank? (← mode).allowsIn op with
    | none => return left
    | some rank =>
      if rank ≤ minRank then return left
      advance
      if op == .punct "**" then
        match left with
        | .unary .. | .compound .await _ _ => unexpected
        | _ => pure ()
      let operand ← g.unary
      let right ← binaryTail fuel (if op == .punct "**" then rank - 1 else rank) operand
      let kind := binaryOp op
      checkNullish kind left
      checkNullish kind right
      let span : Span := ⟨left.span.start, right.span.stop⟩
      binaryTail fuel minRank (.binary span kind left right)

/-- Binary operations.  A left operand that is missing does not stop the reading. -/
def binaryExpr : Parser Expr := do
  let left ← orElseFrom (unaryExpr g) fun index => do
    match rank? (← mode).allowsIn (← lexeme) with
    | some _ =>
      recover (← start)
      return .literal ⟨index, index⟩
    | none => throw index
  if left.isArrow then return left
  binaryTail g ((← get).rest.length + 2) 0 left

/-- A conditional, or what is in the place of its test. -/
def conditional : Parser Expr := do
  let first ← start
  let test ← binaryExpr g
  if test.isArrow then return test
  if ← eat "?" then
    let yes ← inMode (fun m => { m with allowsIn := true, inConditional := true }) g.assignment
    expect ":"
    let no ← inMode (fun m => { m with inConditional := false }) g.assignment
    return .compound .cond (← spanFrom first) [test, yes, no]
  return test

/-- What a generator hands out. -/
def yieldExpr : Parser Expr := do
  let first ← start
  advance
  let isOver ← do
    if ← afterBreak then pure true
    else if ← atEnd then pure true
    else
      match ← lexeme with
      | .punct p => pure ([")", "]", "\x7d", ",", ";", ":"].contains p)
      | .word "in" false | .word "of" false => pure true
      | _ => pure false
  if isOver then return .compound .yield (← spanFrom first) []
  let _ ← eat "*"
  let e ← g.assignment
  return .compound .yield (← spanFrom first) [e]

/-- The operators of assignments that use the old value. -/
def compoundAssignments : List String :=
  ["+=", "-=", "*=", "/=", "%=", "**=", "<<=", ">>=", ">>>=", "&=", "|=", "^=", "&&=", "||=",
   "??="]

/-- An assignment, or what is in the place of its target. -/
def assignmentExpr : Parser Expr := do
  let first ← start
  if (← mode).inGenerator && (← isWord "yield") then return ← yieldExpr g
  modify fun s => { s with arrowStart := some first }
  if (← isTyped) && (← isPunct "<") then
    if let some e ← attempt (typedArrow g first false) then return e
  let left ← conditional g
  if left.isArrow then return left
  if ← isPunct "=" then
    let target ← toTarget left
    advance
    let value ← g.assignment
    return .assign (← spanFrom first) .set target value
  if ← isPunctOf compoundAssignments then
    let op : AssignOp := if ← isPunct "|=" then .bitOr else .other
    let target ← toCompoundTarget left
    advance
    let value ← g.assignment
    return .assign (← spanFrom first) op target value
  return left

/-- Expressions with commas in between. -/
def sequenceExpr : Parser Expr := do
  let first ← start
  let e ← g.assignment
  if ← isPunct "," then
    let more ← many do
      if ← eat "," then return some (← g.assignment) else return none
    return .compound .seq (← spanFrom first) (e :: more)
  return e

end Parser

end TemplateSyntax.Script
