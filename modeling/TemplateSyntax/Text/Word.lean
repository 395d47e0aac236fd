import TemplateSyntax.Text.Category

/-!
# Characters of words and blanks beyond ASCII

The characters of identifiers in scripts, the characters of words in patterns of text, and the
characters that count as blank.
-/

namespace TemplateSyntax

namespace Unicode

/-- Whether a code point lies in one of the ranges. -/
def inRanges (ranges : List (Nat × Nat)) (n : Nat) : Bool :=
  ranges.any fun (lo, hi) => lo ≤ n && n ≤ hi

/-- The characters with the property `White_Space`. -/
def isWhiteSpace (c : Char) : Bool :=
  let n := c.toNat
  (0x09 ≤ n && n ≤ 0x0d) || n == 0x20 || n == 0x85 || n == 0xa0 || n == 0x1680 ||
    (0x2000 ≤ n && n ≤ 0x200a) || n == 0x2028 || n == 0x2029 || n == 0x202f || n == 0x205f ||
    n == 0x3000

/-- The characters of words in ASCII. -/
def isAsciiWord (c : Char) : Bool := c.isAlphanum || c == '_'

/-- Decimal digits of all scripts. -/
def isDecimalDigit (c : Char) : Bool := c.isDigit || inRanges digits c.toNat

/-- Code points with the property `Other_ID_Start` that are no letters. -/
def otherIdStart : List Nat := [0x1885, 0x1886, 0x2118, 0x212e, 0x309b, 0x309c]

/-- Code points with the property `Other_ID_Continue`. -/
def otherIdContinue : List Nat :=
  [0xb7, 0x387, 0x1369, 0x136a, 0x136b, 0x136c, 0x136d, 0x136e, 0x136f, 0x1370, 0x1371, 0x19da,
   0x200c, 0x200d, 0x30fb, 0xff65]

/-- Letters in circles and squares, which count as letters of words only. -/
def enclosedLetters : List (Nat × Nat) :=
  [(0x24b6, 0x24e9), (0x1f130, 0x1f149), (0x1f150, 0x1f169), (0x1f170, 0x1f189)]

/-- The characters that an identifier may start with. -/
def isIdentifierStart (c : Char) : Bool :=
  c.isAlpha || c == '_' || c == '$' ||
    (0x80 ≤ c.toNat && (inRanges letters c.toNat || otherIdStart.contains c.toNat))

/-- The characters that an identifier may go on with. -/
def isIdentifierPart (c : Char) : Bool :=
  c.isAlphanum || c == '_' || c == '$' ||
    (0x80 ≤ c.toNat &&
      (inRanges letters c.toNat || inRanges marks c.toNat || inRanges digits c.toNat ||
        inRanges connectors c.toNat || otherIdStart.contains c.toNat ||
        otherIdContinue.contains c.toNat))

/-- The characters of words: letters, marks, digits and connectors of all scripts. -/
def isWord (c : Char) : Bool :=
  isAsciiWord c ||
    (0x80 ≤ c.toNat &&
      (inRanges letters c.toNat || inRanges marks c.toNat || inRanges enclosingMarks c.toNat ||
        inRanges digits c.toNat || inRanges connectors c.toNat ||
        inRanges enclosedLetters c.toNat || c.toNat == 0x200c || c.toNat == 0x200d))

end Unicode

namespace Text

/-- The text without the blanks at its start. -/
def trimStart (cs : List Char) : List Char := cs.dropWhile Unicode.isWhiteSpace

/-- The text without the blanks at its end. -/
def trimEnd (cs : List Char) : List Char := (cs.reverse.dropWhile Unicode.isWhiteSpace).reverse

/-- The text without the blanks at both ends. -/
def trim (cs : List Char) : List Char := trimEnd (trimStart cs)

/-- Whether the text has nothing but blanks. -/
def isBlank (cs : List Char) : Bool := cs.all Unicode.isWhiteSpace

end Text

end TemplateSyntax
