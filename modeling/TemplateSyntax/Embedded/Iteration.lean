import TemplateSyntax.Embedded.Plain

/-!
# Iterations

The value of `v-for`: aliases, maybe in parentheses, then `in` or `of`, then what is gone over.
-/

namespace TemplateSyntax

namespace Fragment

/-- The pattern that the wrapping of aliases makes, if the script is that loop and nothing
else. -/
inductive WrappedAliases where
  | elements (pats : List Script.Pat)
  /-- The loop does not assign to a list. -/
  | otherHead
  /-- The script is something else. -/
  | otherScript

/-- The patterns in the loop that the wrapping of aliases makes. -/
def wrappedAliases : List Script.Stmt → WrappedAliases
  | [.forEach .forOf _ head _ _] =>
    match head with
    | .declaration _ (.mk (.array _ elements) _ :: _) => .elements elements
    | _ => .otherHead
  | _ => .otherScript

/-- Whether an element of a list is there. -/
def isPresent : Script.Pat → Bool
  | .hole => false
  | _ => true

/-- The text as a list of aliases, in which holes count not. -/
def readAliases (f : Fragment) : Except ReadFailure (List Script.Pat) := do
  let script ← Wrapped.parse ⟨f, .aliases⟩
  match wrappedAliases script with
  | .elements pats => return pats.filter isPresent
  | .otherHead => throw (f.failure 0 .unexpectedToken)
  | .otherScript => throw (f.failure (Text.byteLength f.code) .unexpectedToken)

/-- The text between parentheses that are all around it. -/
def betweenParens? : List Char → Option (List Char)
  | '(' :: cs => if cs.getLast? == some ')' then some cs.dropLast else none
  | _ => none

/-- The references of what is gone over and those of the aliases, in the order of their places. -/
def iterationReferences (pats : List Script.Pat) (e : Script.Expr) : List Reference :=
  ((e.references ++ Script.patReferences pats).map Script.Use.reference).mergeSort fun a b =>
    a.span.start ≤ b.span.start

/-- The text as an iteration. -/
def readIteration (f : Fragment) : Except ReadFailure Embedded := do
  if f.isBlank then return {}
  match Script.Scan.splitIteration f.code with
  | none => throw (f.failure 0 .expectedSeparator)
  | some halves =>
    let left := f.part 0 halves.left
    if left.isBlank then throw (f.failure 0 .expectedAlias)
    let trimmed := Text.trim halves.left
    let inner := betweenParens? trimmed
    let pats ← (match inner with
      | some code => f.part (left.trimStart + 1) code
      | none => f.part left.trimStart trimmed).readAliases
    let right := f.part halves.right.start halves.right.code
    let e ← right.readOne
    let span := f.map.span left.trimStart (halves.right.start + right.trimStop)
    return {
      expression := some (.iteration (pats.filterMap Script.Pat.shape?) e.shape inner.isSome
        left.trimmedSpan span)
      references := (iterationReferences pats e).toArray
      bindings := (Script.declaredVariables .iteration pats).toArray }

end Fragment

end TemplateSyntax
