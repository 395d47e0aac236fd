/-!
# States of the markup lexer

The states are those of the tokenization of markup, less those for doctypes and for the escapes
of scripts, plus three for interpolations between double braces.
-/

namespace TemplateSyntax

/-- What the lexer is in the middle of. -/
inductive LexState where
  | data | rcdata | rawText | tagOpen | endTagOpen | tagName | rcdataLessThanSign
  | rcdataEndTagOpen | rcdataEndTagName | rawTextLessThanSign | rawTextEndTagOpen
  | rawTextEndTagName | beforeAttributeName | attributeName | afterAttributeName
  | beforeAttributeValue | attributeValueDoubleQuoted | attributeValueSingleQuoted
  | attributeValueUnquoted | afterAttributeValueQuoted | selfClosingStartTag | bogusComment
  | markupDeclarationOpen | commentStart | commentStartDash | comment | commentLessThanSign
  | commentLessThanSignBang | commentLessThanSignBangDash | commentLessThanSignBangDashDash
  | commentEndDash | commentEnd | commentEndBang | cdataSection | cdataSectionBracket
  | cdataSectionEnd | characterReference | namedCharacterReference | ambiguousAmpersand
  | numericCharacterReference | hexadecimalCharacterReferenceStart
  | decimalCharacterReferenceStart | hexadecimalCharacterReference | decimalCharacterReference
  | interpolationStart | interpolationData | interpolationEnd
  deriving DecidableEq, Repr, Inhabited

namespace LexState

/-- The name of a state in the log. -/
def name : LexState → String
  | data => "Data"
  | rcdata => "RcData"
  | rawText => "RawText"
  | tagOpen => "TagOpen"
  | endTagOpen => "EndTagOpen"
  | tagName => "TagName"
  | rcdataLessThanSign => "RcDataLessThanSign"
  | rcdataEndTagOpen => "RcDataEndTagOpen"
  | rcdataEndTagName => "RcDataEndTagName"
  | rawTextLessThanSign => "RawTextLessThanSign"
  | rawTextEndTagOpen => "RawTextEndTagOpen"
  | rawTextEndTagName => "RawTextEndTagName"
  | beforeAttributeName => "BeforeAttributeName"
  | attributeName => "AttributeName"
  | afterAttributeName => "AfterAttributeName"
  | beforeAttributeValue => "BeforeAttributeValue"
  | attributeValueDoubleQuoted => "AttributeValueDoubleQuoted"
  | attributeValueSingleQuoted => "AttributeValueSingleQuoted"
  | attributeValueUnquoted => "AttributeValueUnquoted"
  | afterAttributeValueQuoted => "AfterAttributeValueQuoted"
  | selfClosingStartTag => "SelfClosingStartTag"
  | bogusComment => "BogusComment"
  | markupDeclarationOpen => "MarkupDeclarationOpen"
  | commentStart => "CommentStart"
  | commentStartDash => "CommentStartDash"
  | comment => "Comment"
  | commentLessThanSign => "CommentLessThanSign"
  | commentLessThanSignBang => "CommentLessThanSignBang"
  | commentLessThanSignBangDash => "CommentLessThanSignBangDash"
  | commentLessThanSignBangDashDash => "CommentLessThanSignBangDashDash"
  | commentEndDash => "CommentEndDash"
  | commentEnd => "CommentEnd"
  | commentEndBang => "CommentEndBang"
  | cdataSection => "CdataSection"
  | cdataSectionBracket => "CdataSectionBracket"
  | cdataSectionEnd => "CdataSectionEnd"
  | characterReference => "CharacterReference"
  | namedCharacterReference => "NamedCharacterReference"
  | ambiguousAmpersand => "AmbiguousAmpersand"
  | numericCharacterReference => "NumericCharacterReference"
  | hexadecimalCharacterReferenceStart => "HexadecimalCharacterReferenceStart"
  | decimalCharacterReferenceStart => "DecimalCharacterReferenceStart"
  | hexadecimalCharacterReference => "HexadecimalCharacterReference"
  | decimalCharacterReference => "DecimalCharacterReference"
  | interpolationStart => "InterpolationStart"
  | interpolationData => "InterpolationData"
  | interpolationEnd => "InterpolationEnd"

/-- The states in the value of an attribute. -/
def isAttributeValue : LexState → Bool
  | attributeValueDoubleQuoted | attributeValueSingleQuoted | attributeValueUnquoted => true
  | _ => false

end LexState

end TemplateSyntax
