import TemplateSyntax.Embedded.Fragment
import TemplateSyntax.Script.Scan

/-!
# Expressions and filters

A mustache or the value of most directives is one expression, which may go through filters.
-/

namespace TemplateSyntax

namespace Fragment

/-- The arguments of the call that the wrapping of an expression makes, if the script is that
call and nothing else. -/
def wrappedArguments? : List Script.Stmt → Option (List Script.Arg)
  | [.expr _ (.call _ (.number _) arguments _)] => some arguments
  | _ => none

/-- The text as exactly one expression. -/
def readOne (f : Fragment) : Except ReadFailure Script.Expr := do
  let body ← Wrapped.parse ⟨f, .expression⟩
  match wrappedArguments? body with
  | none => throw (f.failure 0 .unexpectedToken)
  | some [] => throw (f.failure 0 .expectedExpression)
  | some [.item e] => return e
  | some [.spread dots _] => throw ⟨.unexpectedSpread, dots⟩
  | some (_ :: .item e :: _) | some (_ :: .spread _ e :: _) =>
    throw ⟨.unexpectedToken, e.span.start⟩
  | some (.hole :: _) | some (_ :: .hole :: _) => throw (f.failure 0 .unexpectedToken)

/-- An argument of a filter, if it is there. -/
def filterArgument? : Script.Arg → Option FilterArgument
  | .item e => some ⟨false, e.shape⟩
  | .spread _ e => some ⟨true, e.shape⟩
  | .hole => none

/-- A filter with its arguments as syntax. -/
structure ReadFilter where
  callee : Script.Ident
  arguments : List Script.Arg
  span : Span

/-- The filter. -/
def ReadFilter.filter (r : ReadFilter) : Filter :=
  ⟨r.callee.name, r.callee.span, r.arguments.filterMap filterArgument?, r.span⟩

/-- The text as a filter: a name, or a call of a name. -/
def readFilter (f : Fragment) : Except ReadFailure ReadFilter := do
  if f.isBlank then throw (f.failure 0 .expectedFilter)
  match ← f.readOne with
  | .ident id => return ⟨id, [], id.span⟩
  | .call s (.ident id) arguments _ => return ⟨id, arguments, s⟩
  | .call s _ _ _ => throw ⟨.expectedFilterName, s.start⟩
  | _ => throw (f.failure 0 .expectedFilterCall)

/-- An expression that goes through filters. -/
def readFiltered (head : Fragment) (filters : List Fragment) : Except ReadFailure Embedded := do
  let e ← head.readOne
  let fs ← filters.mapM readFilter
  let span := fs.foldl (fun s r => s.cover r.span) e.span
  let uses := Script.filteredReferences e (fs.flatMap ReadFilter.arguments)
  return {
    expression := some (.filtered e.shape (fs.map ReadFilter.filter) span)
    references := (uses.map Script.Use.reference).toArray }

/-- The text as an expression without filters. -/
def readPlain (f : Fragment) : Except ReadFailure Embedded := do
  if f.isBlank then return {}
  let e ← f.readOne
  return {
    expression := some (.plain e.shape)
    references := (e.references.map Script.Use.reference).toArray }

/-- The text as an expression, which may go through filters if there are such. -/
def readExpression (f : Fragment) (filters : Bool) : Except ReadFailure Embedded := do
  if f.isBlank then return {}
  match if filters then Script.Scan.splitFilters f.code else [] with
  | head :: next :: more =>
    let part (p : Script.Scan.Part) : Fragment := f.part p.start p.code
    readFiltered (part head) ((next :: more).map part)
  | _ => f.readPlain

end Fragment

end TemplateSyntax
