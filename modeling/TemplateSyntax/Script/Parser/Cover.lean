import TemplateSyntax.Script.Parser.Basic

/-!
# From expressions to patterns

Whether an expression is a pattern shows only when `=` or `=>` follows it.  It is then taken for
the pattern that is written in the same way.
-/

namespace TemplateSyntax.Script

namespace Parser

/-- The expressions that an assignment may have on its left in some form. -/
def isTargetKind (k : ExprKind) : Bool :=
  match k with
  | .member | .superProp | .optChain | .paren | .tsAs | .tsNonNull | .tsTypeAssertion
  | .tsSatisfies | .tsInstantiation => true
  | _ => false

/-- Whether a target that may not be assigned to is a fault.  Where there are types, values and
calls are left to the check of types. -/
def deniesTarget (isTyped : Bool) : Expr → Bool
  | .number _ | .literal _ | .binary .. => !isTyped
  | .paren _ e => deniesTarget isTyped e
  | _ => true

/-- Records a target that may not be assigned to. -/
def checkTarget (e : Expr) : Parser Unit := do
  if !e.isAssignable && deniesTarget (← isTyped) e then recover e.span.start

mutual

/-- The pattern of an expression: one that binds names, or one that assigns to targets. -/
def toPattern (binds : Bool) : Expr → Parser Pat
  | .ident id => return .ident id id.span
  | .array s elements => return .array s (← toElements binds elements)
  | .object s properties => return .object s (← toProperties binds properties)
  | .assign s op target value => do
    if op.isCompound then recover s.start
    match target with
    | .expr e => if binds then recover e.span.start
    | _ => pure ()
    return .withDefault s target value
  | e => do
    if binds || !e.isAssignable then recover e.span.start
    return .expr e

/-- The patterns of the elements of an array; a spread must be the last one. -/
def toElements (binds : Bool) : List Arg → Parser (List Pat)
  | [] => return []
  | a :: as => do
    let p ← toElement binds as.isEmpty a
    return p :: (← toElements binds as)

/-- The pattern of an element. -/
def toElement (binds isLast : Bool) : Arg → Parser Pat
  | .item e => toPattern binds e
  | .spread index e => do
    if !isLast then recover index
    return .rest ⟨index, e.span.stop⟩ (← toPattern binds e)
  | .hole => return .hole

/-- The patterns of the properties of an object; a spread must be the last one. -/
def toProperties (binds : Bool) : List Property → Parser (List PatProperty)
  | [] => return []
  | p :: ps => do
    let q ← toProperty binds ps.isEmpty p
    return q :: (← toProperties binds ps)

/-- The pattern of a property.  Methods have none. -/
def toProperty (binds isLast : Bool) : Property → Parser PatProperty
  | .shorthand id => return .shorthand id
  | .shorthandDefault id value => return .shorthandDefault id value
  | .keyValue key value => return .keyValue key (← toPattern binds value)
  | .spread s e => do
    if !isLast then recover s.start
    return .rest (← toPattern binds e)
  | .method s _ _ | .getter s _ _ _ | .setter s _ _ _ => throw s.start

end

/-- The target of an assignment with `=`. -/
def toTarget (e : Expr) : Parser Pat :=
  match e with
  | .ident _ | .array .. | .object .. => toPattern false e
  | _ => do
    if !isTargetKind e.kind then throw e.span.start
    checkTarget e
    return .expr e

/-- The target of an assignment that uses the old value. -/
def toCompoundTarget (e : Expr) : Parser Pat :=
  match e with
  | .ident id => return .ident id id.span
  | _ => do
    if !isTargetKind e.kind then throw e.span.start
    if !e.isAssignable then recover e.span.start
    return .expr e

/-- Whether properties have a shorthand with a default, which an object must not have. -/
def defaultedProperty? : List Property → Option Nat
  | .shorthandDefault id _ :: _ => some id.span.start
  | _ :: ps => defaultedProperty? ps
  | [] => none

/-- Records that an object is written like a pattern. -/
def checkObject (e : Expr) : Parser Unit :=
  match e with
  | .object _ properties =>
    match defaultedProperty? properties with
    | some index => recover index
    | none => return ()
  | _ => return ()

end Parser

end TemplateSyntax.Script
