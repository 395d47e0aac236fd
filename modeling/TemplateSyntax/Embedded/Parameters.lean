import TemplateSyntax.Embedded.Fragment

/-!
# Parameters of scopes

The value of `v-slot`, `slot-scope` and `scope`: the parameters of a function.
-/

namespace TemplateSyntax

namespace Fragment

/-- The text as the parameters of a scope.  A list of none declares nothing. -/
def readParameters (f : Fragment) : Except ReadFailure Embedded := do
  if f.isBlank then return {}
  let script ← Wrapped.parse ⟨f, .parameters⟩
  match wrappedFunction? script with
  | none => throw (f.failure 0 .unexpectedToken)
  | some (.mk [] _) => return {}
  | some (.mk params _) =>
    return {
      expression := some (.parameters (params.filterMap Script.Pat.shape?) f.trimmedSpan)
      references := ((Script.patReferences params).map Script.Use.reference).toArray
      bindings := (Script.declaredVariables .scope params).toArray }

end Fragment

end TemplateSyntax
