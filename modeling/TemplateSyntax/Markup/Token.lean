import TemplateSyntax.Source.Locator

/-!
# Markup tokens

A token has a kind, the text it stands for with references decoded and line breaks normalised,
and the extent of its raw text in the host file.
-/

namespace TemplateSyntax

/-- A span together with the positions of its ends. -/
structure Extent where
  span : Span
  loc : Location
  deriving DecidableEq, Repr, Inhabited

/-- The extent of a span. -/
def Locator.extent (l : Locator) (span : Span) : Extent := ⟨span, l.location span⟩

/-- What a token is. -/
inductive TokenKind where
  /-- The `=` between the name and the value of an attribute. -/
  | association
  /-- A declaration or processing instruction, which is skipped like a comment. -/
  | bogusComment
  /-- The content of a CDATA section. -/
  | cdataText
  | comment
  /-- `</` and the name of an element. -/
  | endTagOpen
  /-- The name of an attribute. -/
  | identifier
  /-- The value of an attribute, without its quotes. -/
  | literal
  /-- Text of an element whose content has references but no tags. -/
  | rcdataText
  /-- Text of an element whose content has neither references nor tags. -/
  | rawText
  /-- The end `/>` of a tag. -/
  | selfClosingTagClose
  /-- The end `>` of a tag. -/
  | tagClose
  /-- `<` and the name of an element. -/
  | tagOpen
  | text
  /-- A run of blanks. -/
  | whitespace
  /-- The two braces that open an interpolation. -/
  | interpolationStart
  /-- The two braces that close an interpolation. -/
  | interpolationEnd
  deriving DecidableEq, Repr, Inhabited

namespace TokenKind

/-- All kinds, in their fixed order. -/
def all : List TokenKind :=
  [association, bogusComment, cdataText, comment, endTagOpen, identifier, literal, rcdataText,
   rawText, selfClosingTagClose, tagClose, tagOpen, text, whitespace, interpolationStart,
   interpolationEnd]

/-- The name of a kind in answers. -/
def name : TokenKind → String
  | association => "HTMLAssociation"
  | bogusComment => "HTMLBogusComment"
  | cdataText => "HTMLCDataText"
  | comment => "HTMLComment"
  | endTagOpen => "HTMLEndTagOpen"
  | identifier => "HTMLIdentifier"
  | literal => "HTMLLiteral"
  | rcdataText => "HTMLRCDataText"
  | rawText => "HTMLRawText"
  | selfClosingTagClose => "HTMLSelfClosingTagClose"
  | tagClose => "HTMLTagClose"
  | tagOpen => "HTMLTagOpen"
  | text => "HTMLText"
  | whitespace => "HTMLWhitespace"
  | interpolationStart => "VExpressionStart"
  | interpolationEnd => "VExpressionEnd"

/-- The kinds that carry character data. -/
def isText : TokenKind → Bool
  | text | whitespace | rcdataText | rawText | cdataText => true
  | _ => false

/-- The kinds that are skipped as comments. -/
def isComment : TokenKind → Bool
  | comment | bogusComment => true
  | _ => false

theorem mem_all (k : TokenKind) : k ∈ all := by cases k <;> decide

end TokenKind

/-- A piece of markup. -/
structure Token where
  kind : TokenKind
  value : String
  extent : Extent
  deriving DecidableEq, Repr, Inhabited

end TemplateSyntax
