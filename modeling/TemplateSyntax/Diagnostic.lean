import TemplateSyntax.Source.Locator

/-!
# Diagnostics

What is wrong with a template, and where.  Nothing stops the reading of a template: each cause
has a stable code and a wording, and the diagnostics are part of the result.
-/

namespace TemplateSyntax

/-- What is wrong with the name of a directive. -/
inductive KeyFault where
  /-- Text between the closing bracket of a dynamic argument and the first modifier. -/
  | textAfterArgument
  /-- A dynamic argument without its closing bracket. -/
  | unterminatedArgument
  /-- A modifier of no characters. -/
  | emptyModifier
  deriving DecidableEq, Repr, Inhabited

namespace KeyFault

/-- The wording of a fault. -/
def message : KeyFault → String
  | textAfterArgument => "a dynamic argument must be followed by '.' or the end of the name"
  | unterminatedArgument => "unterminated dynamic argument"
  | emptyModifier => "unexpected '.'"

end KeyFault

/-- What is wrong with an embedded expression. -/
inductive ExpressionFault where
  /-- The text does not follow the grammar of the script language. -/
  | grammar
  | expectedSeparator
  | expectedAlias
  | expectedFilter
  | expectedFilterName
  | expectedFilterCall
  | expectedExpression
  | unexpectedSpread
  | unexpectedToken
  deriving DecidableEq, Repr, Inhabited

namespace ExpressionFault

/-- The wording of a fault; offences against the grammar have none of their own. -/
def message? : ExpressionFault → Option String
  | grammar => none
  | expectedSeparator => some "Expected 'in' or 'of' in v-for expression"
  | expectedAlias => some "Expected an alias in v-for expression"
  | expectedFilter => some "Expected a filter"
  | expectedFilterName => some "Expected a filter name"
  | expectedFilterCall => some "Expected a filter name or call"
  | expectedExpression => some "Expected an expression"
  | unexpectedSpread => some "Unexpected spread"
  | unexpectedToken => some "Unexpected token"

end ExpressionFault

/-- What is wrong with a template. -/
inductive Cause where
  | abruptClosingOfEmptyComment
  | absenceOfDigitsInNumericCharacterReference
  | cdataInHtmlContent
  | characterReferenceOutsideUnicodeRange
  | controlCharacterInInputStream
  | controlCharacterReference
  | eofBeforeTagName
  | eofInCdata
  | eofInComment
  | eofInTag
  | incorrectlyClosedComment
  | incorrectlyOpenedComment
  | invalidFirstCharacterOfTagName
  | missingAttributeValue
  | missingEndTagName
  | missingSemicolonAfterCharacterReference
  | missingWhitespaceBetweenAttributes
  | nestedComment
  | noncharacterCharacterReference
  | noncharacterInInputStream
  | nullCharacterReference
  | surrogateCharacterReference
  | unexpectedCharacterInAttributeName
  | unexpectedCharacterInUnquotedAttributeValue
  | unexpectedEqualsSignBeforeAttributeName
  | unexpectedNullCharacter
  | unexpectedQuestionMarkInsteadOfTagName
  | unexpectedSolidusInTag
  | unknownNamedCharacterReference
  | missingInterpolationEnd
  | endTagWithAttributes
  | endTagWithTrailingSolidus
  | duplicateAttribute (name : String)
  | invalidEndTag (name : String)
  | invalidNamespace (name : String)
  | invalidDirective (fault : KeyFault)
  | expression (fault : ExpressionFault)
  deriving DecidableEq, Repr, Inhabited

namespace Cause

/-- The stable code of a cause. -/
def code : Cause → String
  | abruptClosingOfEmptyComment => "abrupt-closing-of-empty-comment"
  | absenceOfDigitsInNumericCharacterReference => "absence-of-digits-in-numeric-character-reference"
  | cdataInHtmlContent => "cdata-in-html-content"
  | characterReferenceOutsideUnicodeRange => "character-reference-outside-unicode-range"
  | controlCharacterInInputStream => "control-character-in-input-stream"
  | controlCharacterReference => "control-character-reference"
  | eofBeforeTagName => "eof-before-tag-name"
  | eofInCdata => "eof-in-cdata"
  | eofInComment => "eof-in-comment"
  | eofInTag => "eof-in-tag"
  | incorrectlyClosedComment => "incorrectly-closed-comment"
  | incorrectlyOpenedComment => "incorrectly-opened-comment"
  | invalidFirstCharacterOfTagName => "invalid-first-character-of-tag-name"
  | missingAttributeValue => "missing-attribute-value"
  | missingEndTagName => "missing-end-tag-name"
  | missingSemicolonAfterCharacterReference => "missing-semicolon-after-character-reference"
  | missingWhitespaceBetweenAttributes => "missing-whitespace-between-attributes"
  | nestedComment => "nested-comment"
  | noncharacterCharacterReference => "noncharacter-character-reference"
  | noncharacterInInputStream => "noncharacter-in-input-stream"
  | nullCharacterReference => "null-character-reference"
  | surrogateCharacterReference => "surrogate-character-reference"
  | unexpectedCharacterInAttributeName => "unexpected-character-in-attribute-name"
  | unexpectedCharacterInUnquotedAttributeValue => "unexpected-character-in-unquoted-attribute-value"
  | unexpectedEqualsSignBeforeAttributeName => "unexpected-equals-sign-before-attribute-name"
  | unexpectedNullCharacter => "unexpected-null-character"
  | unexpectedQuestionMarkInsteadOfTagName => "unexpected-question-mark-instead-of-tag-name"
  | unexpectedSolidusInTag => "unexpected-solidus-in-tag"
  | unknownNamedCharacterReference => "unknown-named-character-reference"
  | missingInterpolationEnd => "x-missing-interpolation-end"
  | endTagWithAttributes => "end-tag-with-attributes"
  | endTagWithTrailingSolidus => "end-tag-with-trailing-solidus"
  | duplicateAttribute _ => "duplicate-attribute"
  | invalidEndTag _ => "x-invalid-end-tag"
  | invalidNamespace _ => "x-invalid-namespace"
  | invalidDirective _ => "x-invalid-directive"
  | expression _ => "x-expression-error"

/-- The wording of a cause, if it has one of its own. -/
def message? : Cause → Option String
  | abruptClosingOfEmptyComment => some "comment closed abruptly with '>'"
  | absenceOfDigitsInNumericCharacterReference => some "numeric character reference has no digits"
  | cdataInHtmlContent => some "CDATA section is only allowed in foreign content"
  | characterReferenceOutsideUnicodeRange => some "character reference is outside the unicode range"
  | controlCharacterInInputStream => some "control character in input stream"
  | controlCharacterReference => some "character reference to a control character"
  | eofBeforeTagName => some "unexpected end of file before tag name"
  | eofInCdata => some "unexpected end of file in CDATA section"
  | eofInComment => some "unexpected end of file in comment"
  | eofInTag => some "unexpected end of file in tag"
  | incorrectlyClosedComment => some "comment closed with '--!>'"
  | incorrectlyOpenedComment => some "comment must start with '<!--'"
  | invalidFirstCharacterOfTagName => some "invalid first character of tag name"
  | missingAttributeValue => some "attribute value is missing after '='"
  | missingEndTagName => some "end tag name is missing"
  | missingSemicolonAfterCharacterReference => some "missing semicolon after character reference"
  | missingWhitespaceBetweenAttributes => some "missing whitespace between attributes"
  | nestedComment => some "nested comment"
  | noncharacterCharacterReference => some "character reference to a noncharacter"
  | noncharacterInInputStream => some "noncharacter in input stream"
  | nullCharacterReference => some "character reference to U+0000"
  | surrogateCharacterReference => some "character reference to a surrogate"
  | unexpectedCharacterInAttributeName => some "unexpected character in attribute name"
  | unexpectedCharacterInUnquotedAttributeValue => some "unexpected character in unquoted attribute value"
  | unexpectedEqualsSignBeforeAttributeName => some "unexpected '=' before attribute name"
  | unexpectedNullCharacter => some "unexpected null character"
  | unexpectedQuestionMarkInsteadOfTagName => some "unexpected '?' instead of tag name"
  | unexpectedSolidusInTag => some "unexpected '/' in tag"
  | unknownNamedCharacterReference => some "unknown named character reference"
  | missingInterpolationEnd => some "interpolation is missing its closing '\x7d\x7d'"
  | endTagWithAttributes => some "end tag must not have attributes"
  | endTagWithTrailingSolidus => some "end tag must not be self-closing"
  | duplicateAttribute name => some ("duplicate attribute: " ++ name)
  | invalidEndTag name => some ("invalid end tag: </" ++ name ++ "> has no matching start tag")
  | invalidNamespace name => some ("invalid namespace in " ++ name ++ " attribute")
  | invalidDirective fault => some ("invalid directive: " ++ fault.message)
  | expression fault => fault.message?

end Cause

/-- A cause at an offset of the host file, whose position goes with it. -/
structure Diagnostic where
  cause : Cause
  offset : Nat
  position : Position
  deriving DecidableEq, Repr, Inhabited

/-- The diagnostic of a cause at a host offset. -/
def Locator.diagnose (l : Locator) (cause : Cause) (offset : Nat) : Diagnostic :=
  ⟨cause, offset, l.position offset⟩

end TemplateSyntax
