/-!
# Breaches

The reader of templates relies on facts about its own state: a token that is ended was started,
a node that gets a child can have one, an index lies in the text and between two characters.
Each place that relies on such a fact checks it.  A check that fails leaves a breach; the reading
goes on, so that a breach is a part of the result like a diagnostic.
-/

namespace TemplateSyntax

/-- A fact that was relied on and did not hold. -/
inductive Breach where
  /-- A token was ended, and none was being built. -/
  | noToken
  /-- A token ended before it started. -/
  | tokenReversed
  /-- Text that was held back was put in place again, and a token was being built already. -/
  | tokenWhileHeldBack
  /-- An index was past the end of the text. -/
  | indexOutsideText
  /-- A text was cut inside a character. -/
  | cutInsideCharacter
  /-- The result of an addition or multiplication did not fit a word, or that of a subtraction
  was negative. -/
  | overflow
  /-- A bound for the number of steps was reached before the end of the text. -/
  | outOfSteps
  /-- The name of an attribute came outside of a tag. -/
  | nameOutsideTag
  /-- The value of an attribute came outside of a tag. -/
  | valueOutsideTag
  /-- The end of a tag came outside of a tag. -/
  | closeOutsideTag
  /-- A node got a child, and was neither the root nor an element. -/
  | childOfLeaf
  /-- There was no node of an index. -/
  | noNode
  /-- A modifier of a directive did not start with a dot. -/
  | modifierWithoutDot
  deriving DecidableEq, Repr, Inhabited

namespace Breach

/-- The outcome of a check: nothing, or the breach of what was relied on. -/
def expect (ok : Bool) (breach : Breach) : List Breach := if ok then [] else [breach]

@[simp] theorem expect_eq_nil {ok : Bool} {breach : Breach} : expect ok breach = [] ↔ ok = true := by
  cases ok <;> simp [expect]

end Breach

end TemplateSyntax
