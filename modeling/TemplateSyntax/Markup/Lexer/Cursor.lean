import TemplateSyntax.Diagnostic
import TemplateSyntax.Text.Bytes
import TemplateSyntax.Text.CharClass

/-!
# The reading position

A cursor stands on one character of a template, the current one, and knows the text from there
on.  Moving on joins `\r\n` and turns a lone `\r` into a line feed.
-/

namespace TemplateSyntax

/-- The unread text and its index, the text from the current character on and its index, and
the current character, which is missing before the start and at the end. -/
structure Cursor where
  rest : List Char
  index : Nat
  here : List Char
  start : Nat
  char : Option Char
  deriving Repr, Inhabited

namespace Cursor

/-- The cursor in front of a text. -/
def ofChars (cs : List Char) : Cursor := ⟨cs, 0, cs, 0, none⟩

/-- The cursor on the next character. -/
def advance (c : Cursor) : Cursor :=
  match c.rest with
  | [] => ⟨[], c.index, [], c.index, none⟩
  | '\r' :: '\n' :: rest => ⟨rest, c.index + 2, c.rest, c.index, some '\n'⟩
  | '\r' :: rest => ⟨rest, c.index + 1, c.rest, c.index, some '\n'⟩
  | ch :: rest => ⟨rest, c.index + ch.utf8Size, c.rest, c.index, some ch⟩

/-- The index of the line feed that `advance` drops, if the unread text starts with `\r\n`. -/
def droppedLineFeed? (c : Cursor) : Option Nat :=
  match c.rest with
  | '\r' :: '\n' :: _ => some (c.index + 1)
  | _ => none

/-- The cursor that goes on reading `n` one-byte characters after the start of the current
one. -/
def skip (c : Cursor) (n : Nat) : Cursor := { c with rest := c.here.drop n, index := c.start + n }

/-- What is wrong with a character, wherever it stands. -/
def inputFault? (ch : Char) : Option Cause :=
  if ch.toNat = 0 then some .unexpectedNullCharacter
  else if CharClass.isDisallowedControl ch.toNat then some .controlCharacterInInputStream
  else if CharClass.isNoncharacter ch.toNat then some .noncharacterInInputStream
  else none

/-- Moving on takes at least one character, as long as there is one. -/
theorem length_rest_advance_lt {c : Cursor} (h : c.advance.char.isSome) :
    c.advance.rest.length < c.rest.length := by
  unfold advance at h ⊢
  split
  · next hr => simp [hr] at h
  · next rest hr => rw [hr]; exact Nat.lt_add_of_pos_right (by decide : 0 < 2)
  · next rest _ hr => rw [hr]; exact Nat.lt_succ_self rest.length
  · next rest _ _ hr => rw [hr]; exact Nat.lt_succ_self rest.length

end Cursor

end TemplateSyntax
