/-!
# Classes of characters in markup

The classes are ranges of code points; those of letters, digits and blanks hold ASCII only, as
markup gives no other character a meaning.
-/

namespace TemplateSyntax

namespace CharClass

/-- Tab, line feed, form feed, carriage return and space. -/
def isBlank (c : Char) : Bool :=
  c == '\t' || c == '\n' || c == '\x0c' || c == '\r' || c == ' '

/-- The digits of the hexadecimal numerals, in both cases. -/
def isHexDigit (c : Char) : Bool :=
  c.isDigit || ('a' ≤ c && c ≤ 'f') || ('A' ≤ c && c ≤ 'F')

/-- The value of a hexadecimal digit. -/
def digitValue (c : Char) : Nat :=
  if c.isDigit then c.toNat - '0'.toNat
  else if 'a' ≤ c && c ≤ 'f' then c.toNat - 'a'.toNat + 10
  else c.toNat - 'A'.toNat + 10

/-- The two blocks of control characters. -/
def isControl (n : Nat) : Bool := n ≤ 0x1f || (0x7f ≤ n && n ≤ 0x9f)

/-- Control characters that are neither blank nor U+0000. -/
def isDisallowedControl (n : Nat) : Bool :=
  isControl n && n != 0 && n != 0x09 && n != 0x0a && n != 0x0c && n != 0x0d

/-- Code points that are halves of a pair of 16-bit units. -/
def isSurrogate (n : Nat) : Bool := 0xd800 ≤ n && n ≤ 0xdfff

/-- U+FDD0 to U+FDEF, and the last two code points of each plane. -/
def isNoncharacter (n : Nat) : Bool :=
  (0xfdd0 ≤ n && n ≤ 0xfdef) || (n % 0x10000 / 2 == 0x7fff && n ≤ 0x10ffff)

/-- What a numeric reference to U+0080 to U+009F means: the character that the code page
windows-1252 has there. -/
def codePageReplacement? : Nat → Option Char
  | 0x80 => some '\u20ac'
  | 0x82 => some '\u201a'
  | 0x83 => some '\u0192'
  | 0x84 => some '\u201e'
  | 0x85 => some '\u2026'
  | 0x86 => some '\u2020'
  | 0x87 => some '\u2021'
  | 0x88 => some '\u02c6'
  | 0x89 => some '\u2030'
  | 0x8a => some '\u0160'
  | 0x8b => some '\u2039'
  | 0x8c => some '\u0152'
  | 0x8e => some '\u017d'
  | 0x91 => some '\u2018'
  | 0x92 => some '\u2019'
  | 0x93 => some '\u201c'
  | 0x94 => some '\u201d'
  | 0x95 => some '\u2022'
  | 0x96 => some '\u2013'
  | 0x97 => some '\u2014'
  | 0x98 => some '\u02dc'
  | 0x99 => some '\u2122'
  | 0x9a => some '\u0161'
  | 0x9b => some '\u203a'
  | 0x9c => some '\u0153'
  | 0x9e => some '\u017e'
  | 0x9f => some '\u0178'
  | _ => none

end CharClass

/-- Equality of strings up to the case of ASCII letters. -/
def Text.sameLetters (a b : String) : Bool := a.toLower == b.toLower

end TemplateSyntax
