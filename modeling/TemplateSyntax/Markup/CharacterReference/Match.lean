import TemplateSyntax.Markup.CharacterReference.Table

/-!
# Reading a named reference

Of the names that the text after `&` begins with, the one closed by a semicolon is taken, and
else the longest of those that may go without.
-/

namespace TemplateSyntax

namespace NamedReference

/-- A name found at the start of a text: its length with the semicolon, if there is one, the
decoded text, and whether the semicolon is there. -/
structure Found where
  length : Nat
  value : String
  terminated : Bool
  deriving DecidableEq, Repr, Inhabited

/-- The most letters and digits that a name has. -/
def maxLength : Nat := 31

/-- The letters and digits that a text starts with. -/
def run (cs : List Char) : List Char := cs.takeWhile Char.isAlphanum

/-- The entry whose name is exactly `cs`. -/
def lookup? (cs : List Char) : Option NamedReference := all.find? fun e => e.name.toList == cs

/-- The longest name at the start of a word that may go without a semicolon, of those with at
most as many characters.  None of them has less than two. -/
def longestLegacy? (word : List Char) : Nat → Option Found
  | shorter + 2 =>
    match (lookup? (word.take (shorter + 2))).filter legacy with
    | some e => some ⟨shorter + 2, e.value, false⟩
    | none => longestLegacy? word (shorter + 1)
  | _ => none

/-- The name at the start of the text after `&`. -/
def match? (cs : List Char) : Option Found :=
  let word := run cs
  if word.isEmpty then none
  else
    let terminated :=
      if word.length ≤ maxLength && (cs.drop word.length).head? == some ';' then lookup? word
      else none
    match terminated with
    | some e => some ⟨word.length + 1, e.value, true⟩
    | none => longestLegacy? word (min word.length maxLength)

end NamedReference

end TemplateSyntax
